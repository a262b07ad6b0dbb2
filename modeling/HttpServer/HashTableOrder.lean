import HttpServer.HashTableMap

/-!
# The runs of the list

In split order the keys of a bucket are a run of the list, behind the dummy
node of the bucket, for every number of buckets that is a power of two.
When the number doubles the run is cut in two at the dummy node of the new
bucket. `initialize_bucket` comes to its end, and each bucket that it has
initialized has its dummy node in the list behind its parent's
(`initializeBucket_initialized`).
-/

namespace HttpServer

namespace HashTable

open BitOrder LockFreeList LockFreeList.Seq

variable {i : ℕ} {b k size : Word}

/-! ## Buckets -/

/-- The bit that `reverseRegularKey` sets is none of a bucket number's. -/
theorem toNat_or_bit_mod (hi : i ≤ 31) (k : Word) :
    (k ||| 1#32 <<< 31).toNat % 2 ^ i = k.toNat % 2 ^ i := by
  have hbit : (1#32 <<< 31).toNat = 2 ^ 31 := by decide
  rw [BitVec.toNat_or, hbit, Nat.or_mod_two_pow, Nat.mod_eq_zero_of_dvd (Nat.pow_dvd_pow 2 hi),
    Nat.or_zero]

theorem mod_eq_iff (hi : i ≤ 31) (hb : b.toNat < 2 ^ i) (k : Word) :
    k.toNat % 2 ^ i = b.toNat ↔ reverseDummyKey b < reverseRegularKey k
      ∧ (reverseRegularKey k).toNat < (reverseDummyKey b).toNat + 2 ^ (32 - i) := by
  have hlt : b.toNat < 2 ^ 31 := lt_of_lt_of_le hb (Nat.pow_le_pow_right (by decide) hi)
  have hne := reverseRegularKey_ne_reverseDummyKey (k := k) hlt
  rw [← toNat_or_bit_mod hi, ← reverse_mem_block_iff (by omega) hb, ← reverse_eq, ← reverse_eq]
  exact and_congr_left fun _ => ⟨fun hle => lt_of_le_of_ne hle hne.symm, le_of_lt⟩

/-! ## Doubling -/

theorem toNat_two_mul (hsize : size.toNat = 2 ^ i) (hdouble : 2 * size ≠ 0) :
    i < 31 ∧ (2 * size).toNat = 2 ^ (i + 1) := by
  have hmul : (2 * size).toNat = 2 ^ (i + 1) % 2 ^ 32 := by
    have htwo : (2 : Word).toNat = 2 := rfl
    rw [BitVec.toNat_mul, hsize, htwo, ← Nat.pow_succ']
  have hlt : 2 ^ i < 2 ^ 32 := hsize ▸ size.isLt
  have hi : i < 32 := (Nat.pow_lt_pow_iff_right (by decide)).mp hlt
  have hne : i ≠ 31 := by
    rintro rfl
    exact hdouble (BitVec.eq_of_toNat_eq hmul)
  have hpow : 2 ^ (i + 1) < 2 ^ 32 := Nat.pow_lt_pow_right (by decide) (by omega)
  exact ⟨by omega, hmul.trans (Nat.mod_eq_of_lt hpow)⟩

theorem toNat_add_size (hsize : size.toNat = 2 ^ i) (hi : i < 31) (hb : b.toNat < 2 ^ i) :
    (b + size).toNat = b.toNat + 2 ^ i := by
  have hpow : 2 ^ (i + 1) ≤ 2 ^ 31 := Nat.pow_le_pow_right (by decide) hi
  rw [Nat.pow_succ] at hpow
  rw [BitVec.toNat_add, hsize, Nat.mod_eq_of_lt (by omega)]

theorem reverseDummyKey_add_size (hsize : size.toNat = 2 ^ i) (hi : i < 31)
    (hb : b.toNat < 2 ^ i) :
    (reverseDummyKey (b + size)).toNat = (reverseDummyKey b).toNat + 2 ^ (32 - (i + 1)) := by
  rw [reverseDummyKey, reverseDummyKey, reverse_eq, reverse_eq]
  exact reverse_add_two_pow (by omega) hb (toNat_add_size hsize hi hb)

/-- Doubling cuts the run of the bucket `b`. -/
theorem umod_two_mul_iff (hsize : size.toNat = 2 ^ i) (hdouble : 2 * size ≠ 0)
    (hb : b.toNat < 2 ^ i) (k : Word) :
    (k % (2 * size) = b ↔ reverseDummyKey b < reverseRegularKey k
        ∧ reverseRegularKey k < reverseDummyKey (b + size))
      ∧ (k % (2 * size) = b + size ↔ reverseDummyKey (b + size) < reverseRegularKey k
        ∧ (reverseRegularKey k).toNat < (reverseDummyKey b).toNat + 2 ^ (32 - i)) := by
  obtain ⟨hi, htwo⟩ := toNat_two_mul hsize hdouble
  have hpow : 2 ^ (i + 1) = 2 ^ i + 2 ^ i := by rw [Nat.pow_succ, Nat.mul_two]
  have hhalf : 2 ^ (32 - i) = 2 ^ (32 - (i + 1)) + 2 ^ (32 - (i + 1)) := by
    rw [show 32 - i = 32 - (i + 1) + 1 by omega, Nat.pow_succ, Nat.mul_two]
  have hadd := toNat_add_size hsize hi hb
  have hdummy := reverseDummyKey_add_size hsize hi hb
  have hmod : ∀ c : Word, k % (2 * size) = c ↔ k.toNat % 2 ^ (i + 1) = c.toNat := by
    intro c
    rw [← BitVec.toNat_inj, BitVec.toNat_umod, htwo]
  constructor
  · rw [hmod, mod_eq_iff hi (by omega), ← hdummy]
    rfl
  · rw [hmod, mod_eq_iff hi (by omega), hhalf, ← Nat.add_assoc, hdummy]

/-! ## Parents -/

theorem log2_eq (hb : b ≠ 0) : b.toNat.log2 = 31 - b.clz.toNat := by
  have hclz : b.clz.toNat < 32 := BitVec.clz_lt_iff_ne_zero.mpr hb
  have hne : b.toNat ≠ 0 := fun h => hb (BitVec.eq_of_toNat_eq h)
  refine (Nat.log2_eq_iff hne).mpr ⟨?_, ?_⟩
  · exact BitVec.two_pow_sub_clz_le_toNat_of_ne_zero (by decide) hb
  · rw [show 31 - b.clz.toNat + 1 = 32 - b.clz.toNat by omega]
    exact BitVec.toNat_lt_two_pow_sub_clz

/-- The parent is the bucket without its highest bit. -/
theorem toNat_getParent (hb : b ≠ 0) : (getParent b).toNat = b.toNat - 2 ^ b.toNat.log2 := by
  have hne : b.toNat ≠ 0 := fun h => hb (BitVec.eq_of_toNat_eq h)
  have hle := Nat.log2_self_le hne
  have hlt : b.toNat < 2 ^ (b.toNat.log2 + 1) := Nat.lt_log2_self
  have hpow : 2 ^ (b.toNat.log2 + 1) = 2 ^ b.toNat.log2 + 2 ^ b.toNat.log2 := by
    rw [Nat.pow_succ, Nat.mul_two]
  have hmod : b.toNat - 2 ^ b.toNat.log2 = b.toNat % 2 ^ b.toNat.log2 := by
    rw [Nat.mod_eq_sub_mod hle, Nat.mod_eq_of_lt (by omega)]
  rw [hmod]
  apply Nat.eq_of_testBit_eq
  intro j
  rw [Nat.testBit_mod_two_pow, BitVec.testBit_toNat, getLsbD_getParent hb, ← log2_eq hb,
    BitVec.testBit_toNat, Bool.and_comm]
  rcases Nat.lt_trichotomy j b.toNat.log2 with h | rfl | h
  · rw [decide_eq_true h, decide_eq_true (Nat.ne_of_gt h)]
  · simp
  · have hzero : b.getLsbD j = false :=
      Nat.testBit_lt_two_pow (lt_of_lt_of_le hlt (Nat.pow_le_pow_right (by decide) h))
    rw [hzero, Bool.and_false, Bool.and_false]

/-- The depth of the recursion of `initialize_bucket` is at most the number
of the bucket. -/
theorem initializeBucket_fuel (t : Table) : ∀ {n n' : ℕ} {b : Word}, b.toNat < n → b.toNat < n' →
    t.initializeBucket n b = t.initializeBucket n' b := by
  intro n
  induction n with
  | zero =>
      intro n' b h _
      exact absurd h (Nat.not_lt_zero _)
  | succ n ih =>
      intro n' b hn hn'
      obtain ⟨n', rfl⟩ := Nat.exists_eq_succ_of_ne_zero (Nat.ne_of_gt (Nat.zero_lt_of_lt hn'))
      rw [Table.initializeBucket, Table.initializeBucket]
      by_cases h0 : b = 0
      · rw [if_neg (not_not.mpr h0), if_neg (not_not.mpr h0)]
      · have hlt : (getParent b).toNat < b.toNat := getParent_lt h0
        have hparent : t.initializeBucket n (getParent b) = t.initializeBucket n' (getParent b) :=
          ih (by omega) (by omega)
        rw [if_pos h0, if_pos h0]
        simp only [hparent]

/-- The dummy node of a bucket is in the list, somewhere behind its parent's. -/
def BehindParent (t : Table) (nodes : List Addr) (c : Word) : Prop :=
  ∃ p d, t.bucketAt (getParent c) = some (some p) ∧ t.bucketAt c = some (some d)
    ∧ t.heap.data p = reverseDummyKey (getParent c) ∧ t.heap.data d = reverseDummyKey c
    ∧ [p, d].Sublist nodes

/-- What `initialize_bucket` leaves of the table `t`. -/
structure Initialized (t : Table) (b : Word) (t' : Table) : Prop where
  bucket : ∃ d, t'.bucketAt b = some (some d)
  behind : ∃ nodes, Holds t'.heap nodes
    ∧ ∀ c d, c ≠ 0 → t.bucketAt c = some none → t'.bucketAt c = some (some d) →
      BehindParent t' nodes c

theorem sublist_of_sorted {h : Heap Word} {nodes : List Addr} (hh : Holds h nodes) {p d : Addr}
    (hp : p ∈ nodes) (hd : d ∈ nodes) (hlt : h.data p < h.data d) : [p, d].Sublist nodes := by
  obtain ⟨l₁, l₂, rfl⟩ := List.append_of_mem hp
  refine List.Sublist.trans ?_ (List.sublist_append_right l₁ _)
  refine List.Sublist.cons_cons p (List.singleton_sublist.mpr ?_)
  rcases List.mem_append.mp hd with hd | hd
  · have hbefore := (List.pairwise_append.mp hh.sorted).2.2 d hd p (List.mem_cons_self ..)
    exact absurd hbefore (lt_asymm hlt)
  · refine (List.mem_cons.mp hd).resolve_left ?_
    rintro rfl
    exact lt_irrefl _ hlt

theorem initializeBucket_initialized {t : Table} {m : Map} {nodes : List Addr}
    (hr : Rep t m nodes) (hb : t.bucketAt b = some none) :
    ∃ t', (∀ n, b.toNat < n → t.initializeBucket n b = some t') ∧ Initialized t b t' := by
  obtain ⟨t', nodes', d, hinit, hr', -, hd, -, hparents⟩ :=
    initializeBucket_spec hr hb (Nat.lt_succ_self _)
  refine ⟨t', fun n hn => ?_, ⟨d, hd⟩, nodes', hr'.list, fun c x hc hnone hx => ?_⟩
  · rw [initializeBucket_fuel t hn (Nat.lt_succ_self _), hinit]
  · obtain ⟨p, hp⟩ := hparents c x hc hnone hx
    obtain ⟨hpmem, hpdata⟩ := hr'.dummy _ p hp
    obtain ⟨hxmem, hxdata⟩ := hr'.dummy c x hx
    refine ⟨p, x, hp, hx, hpdata, hxdata, sublist_of_sorted hr'.list hpmem hxmem ?_⟩
    rw [hpdata, hxdata]
    exact reverseDummyKey_getParent_lt hc

/-- `reverse` reverses; the keys of a bucket are the run of the list behind
its dummy node, which doubling cuts in two at the new dummy node; the
parents lead to bucket 0, each before the buckets it is the parent of; and
`initialize_bucket`, on a table under construction or after any calls, ends
and has put each dummy node behind its parent's. -/
theorem split_ordering :
    (∀ (x : Word) (i : ℕ), i < 32 → (reverse x).getLsbD i = x.getLsbD (31 - i))
    ∧ (∀ i ≤ 31, ∀ b : Word, b.toNat < 2 ^ i → ∀ k : Word,
        (k.toNat % 2 ^ i = b.toNat ↔ reverseDummyKey b < reverseRegularKey k
          ∧ (reverseRegularKey k).toNat < (reverseDummyKey b).toNat + 2 ^ (32 - i)))
    ∧ (∀ (i : ℕ) (size : Word), size.toNat = 2 ^ i → 2 * size ≠ 0 →
        ∀ b : Word, b.toNat < 2 ^ i → ∀ k : Word,
        (k % (2 * size) = b ↔ reverseDummyKey b < reverseRegularKey k
          ∧ reverseRegularKey k < reverseDummyKey (b + size))
        ∧ (k % (2 * size) = b + size ↔ reverseDummyKey (b + size) < reverseRegularKey k
          ∧ (reverseRegularKey k).toNat < (reverseDummyKey b).toNat + 2 ^ (32 - i)))
    ∧ (∀ b : Word, 0 < b → getParent b < b
        ∧ (getParent b).toNat = b.toNat - 2 ^ b.toNat.log2
        ∧ reverseDummyKey (getParent b) < reverseDummyKey b)
    ∧ ∀ t : Table, (∃ h, t = emptyTable h) ∨ machine.Reachable t →
        ∀ b : Word, t.bucketAt b = some none →
          ∃ t', (∀ n, b.toNat < n → t.initializeBucket n b = some t') ∧ Initialized t b t' := by
  refine ⟨fun x i hi => getLsbD_reverse x hi, fun i hi b hb k => mod_eq_iff hi hb k,
    fun i size hsize hdouble b hb k => umod_two_mul_iff hsize hdouble hb k, fun b hpos => ?_, ?_⟩
  · have hb : b ≠ 0 := ne_of_gt hpos
    exact ⟨getParent_lt hb, toNat_getParent hb, reverseDummyKey_getParent_lt hb⟩
  · rintro t (⟨h, rfl⟩ | hreach) b hb
    · exact initializeBucket_initialized (emptyTable_rep h) hb
    · obtain ⟨m, nodes, hr⟩ := Rep.of_reachable hreach
      exact initializeBucket_initialized hr hb

/-- Bucket 5 of 8, and of 16 after a doubling; and bucket 1 of a new table,
which has its parent initialized on the way. -/
theorem bucketFive_ordered :
    (reverse 6).getLsbD 30 = true
    ∧ (reverseDummyKey 5 < reverseRegularKey 29
      ∧ (reverseRegularKey 29).toNat < (reverseDummyKey 5).toNat + 2 ^ 29)
    ∧ reverseDummyKey 13 < reverseRegularKey 29
    ∧ getParent 5 < 5
    ∧ ∃ t', (emptyTable ⟨fun _ => ⟨none, false⟩, fun _ => 0, fun _ => 0, 0⟩).initializeBucket 2 1
        = some t'
      ∧ Initialized (emptyTable ⟨fun _ => ⟨none, false⟩, fun _ => 0, fun _ => 0, 0⟩) 1 t' := by
  obtain ⟨hreverse, hrun, hdouble, hparent, hinit⟩ := split_ordering
  obtain ⟨t', hends, hinitialized⟩ :=
    hinit (emptyTable ⟨fun _ => ⟨none, false⟩, fun _ => 0, fun _ => 0, 0⟩) (.inl ⟨_, rfl⟩) 1 rfl
  refine ⟨?_, (hrun 3 (by decide) 5 (by decide) 29).mp (by decide),
    ((hdouble 3 8 (by decide) (by decide) 5 (by decide) 29).2.mp (by decide)).1,
    (hparent 5 (by decide)).1, t', hends 2 (by decide), hinitialized⟩
  rw [hreverse 6 30 (by decide)]
  rfl

end HashTable

end HttpServer
