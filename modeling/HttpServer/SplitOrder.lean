import HttpServer.Lib.BitOrder

/-!
# Split order

The keys of the hash table's list (lock_free_hash_table.cpp): a key of
the table and the number of a bucket are written backwards, so that
doubling the table splits each bucket in two without moving a node. A
regular key has its highest bit set first, and so ends in a one; the
dummy key of a bucket ends in a zero as long as the table has at most
2^31 buckets.
-/

namespace HttpServer

namespace HashTable

open BitOrder

/-- `uint32_t`. -/
abbrev Word := BitVec 32

def reverse (x : Word) : Word :=
  let x := ((x &&& 0xaaaaaaaa#32) >>> 1) ||| ((x &&& 0x55555555#32) <<< 1)
  let x := ((x &&& 0xcccccccc#32) >>> 2) ||| ((x &&& 0x33333333#32) <<< 2)
  let x := ((x &&& 0xf0f0f0f0#32) >>> 4) ||| ((x &&& 0x0f0f0f0f#32) <<< 4)
  let x := ((x &&& 0xff00ff00#32) >>> 8) ||| ((x &&& 0x00ff00ff#32) <<< 8)
  (x >>> 16) ||| (x <<< 16)

def reverseRegularKey (key : Word) : Word := reverse (key ||| 1#32 <<< 31)

def reverseDummyKey (key : Word) : Word := reverse key

/-- Unsets the highest bit that is set; `BitVec.clz` is `__builtin_clz`. -/
def getParent (bucketNo : Word) : Word :=
  let pos := bucketNo.clz.toNat
  bucketNo ^^^ (1#32 <<< (8 * 4 - 1 - pos))

/-! ## Reversal -/

/-- Where bit `i` is after groups of `2^j` bits have changed places with
their neighbours. -/
theorem xor_two_pow : ∀ j < 5, ∀ i < 32, i ^^^ 2 ^ j < 32 ∧
    if i.testBit j then 2 ^ j ≤ i ∧ i - 2 ^ j = i ^^^ 2 ^ j ∧ (i - 2 ^ j).testBit j = false
      ∧ (2 ^ j + i).testBit j = false
    else 2 ^ j + i = i ^^^ 2 ^ j ∧ (2 ^ j + i).testBit j = true
      ∧ (2 ^ j ≤ i → (i - 2 ^ j).testBit j = true) := by
  decide

/-- A line of `reverse`: `m` has the upper groups of `2^j` bits, `m'` the
lower ones. -/
theorem getLsbD_exchange {m m' : Word} {j : ℕ} (hj : j < 5)
    (hm : ∀ i < 32, m.getLsbD i = i.testBit j) (hm' : ∀ i < 32, m'.getLsbD i = !i.testBit j)
    (x : Word) {i : ℕ} (hi : i < 32) :
    (((x &&& m) >>> 2 ^ j) ||| ((x &&& m') <<< 2 ^ j)).getLsbD i = x.getLsbD (i ^^^ 2 ^ j) := by
  obtain ⟨hlt, hcase⟩ := xor_two_pow j hj i hi
  rw [BitVec.getLsbD_or, BitVec.getLsbD_ushiftRight, BitVec.getLsbD_shiftLeft, BitVec.getLsbD_and,
    BitVec.getLsbD_and]
  split at hcase
  · obtain ⟨hle, heq, hlow, hhigh⟩ := hcase
    have hnone : m.getLsbD (2 ^ j + i) = false := by
      by_cases hout : 2 ^ j + i < 32
      · rw [hm _ hout, hhigh]
      · exact BitVec.getLsbD_of_ge _ _ (not_lt.mp hout)
    have hsome : m'.getLsbD (i - 2 ^ j) = true := by
      rw [hm' _ (heq ▸ hlt), hlow]
      rfl
    rw [hnone, hsome, heq]
    simp [hi, Nat.not_lt.mpr hle]
  · obtain ⟨heq, hhigh, hlow⟩ := hcase
    have hsome : m.getLsbD (2 ^ j + i) = true := by
      rw [hm _ (heq ▸ hlt), hhigh]
    rw [hsome, heq]
    by_cases hle : 2 ^ j ≤ i
    · rw [hm' _ (Nat.lt_of_le_of_lt (Nat.sub_le i _) hi), hlow hle]
      simp
    · simp [Nat.not_le.mp hle]

/-- The two halves change places. -/
theorem getLsbD_swap (x : Word) {i : ℕ} (hi : i < 32) :
    ((x >>> 16) ||| (x <<< 16)).getLsbD i = x.getLsbD (i ^^^ 16) := by
  have hindex : ∀ i < 32, i ^^^ 16 = if i < 16 then 16 + i else i - 16 := by decide
  rw [BitVec.getLsbD_or, BitVec.getLsbD_ushiftRight, BitVec.getLsbD_shiftLeft, hindex i hi]
  by_cases hlow : i < 16
  · simp [hlow]
  · simp [hi, hlow, BitVec.getLsbD_of_ge x (16 + i) (by omega)]

theorem reverse_eq (x : Word) : reverse x = x.reverse := by
  apply BitVec.eq_of_getLsbD_eq
  intro i hi
  have hlt : ∀ j < 5, ∀ i < 32, i ^^^ 2 ^ j < 32 := fun j hj i hi => (xor_two_pow j hj i hi).1
  have hindex : ∀ i < 32, i ^^^ 16 ^^^ 2 ^ 3 ^^^ 2 ^ 2 ^^^ 2 ^ 1 ^^^ 2 ^ 0 = 31 - i := by decide
  have h₄ := hlt 4 (by decide) i hi
  have h₃ := hlt 3 (by decide) _ h₄
  have h₂ := hlt 2 (by decide) _ h₃
  have h₁ := hlt 1 (by decide) _ h₂
  rw [BitVec.getLsbD_reverse, BitVec.getMsbD_eq_getLsbD, decide_eq_true hi, Bool.true_and,
    ← hindex i hi]
  refine (getLsbD_swap _ hi).trans ?_
  refine (getLsbD_exchange (j := 3) (by decide) (by decide) (by decide) _ h₄).trans ?_
  refine (getLsbD_exchange (j := 2) (by decide) (by decide) (by decide) _ h₃).trans ?_
  refine (getLsbD_exchange (j := 1) (by decide) (by decide) (by decide) _ h₂).trans ?_
  exact getLsbD_exchange (j := 0) (by decide) (by decide) (by decide) _ h₁

theorem getLsbD_reverse (x : Word) {i : ℕ} (hi : i < 32) :
    (reverse x).getLsbD i = x.getLsbD (31 - i) := by
  rw [reverse_eq, BitVec.getLsbD_reverse, BitVec.getMsbD_eq_getLsbD, decide_eq_true hi,
    Bool.true_and]

theorem reverse_injective {x y : Word} (h : reverse x = reverse y) : x = y := by
  rw [reverse_eq, reverse_eq] at h
  exact reverse_inj.mp h

/-- Fewer bits make a smaller list key. -/
theorem reverse_lt {x y : Word} (h : x &&& y = x) (hne : x ≠ y) : reverse x < reverse y := by
  rw [reverse_eq, reverse_eq]
  exact reverse_lt_of_and_eq h hne

/-! ## Regular keys -/

/-- The bits of a key that its list key keeps. -/
def low (key : Word) : Word := key &&& 0x7fffffff#32

theorem toNat_low (key : Word) : (low key).toNat = key.toNat % 2 ^ 31 := by
  rw [low, BitVec.toNat_and]
  exact Nat.and_two_pow_sub_one_eq_mod key.toNat 31

theorem low_eq_iff {k k' : Word} : low k = low k' ↔ k.toNat % 2 ^ 31 = k'.toNat % 2 ^ 31 := by
  rw [← toNat_low, ← toNat_low, BitVec.toNat_inj]

theorem low_of_lt {key : Word} (h : key.toNat < 2 ^ 31) : low key = key := by
  apply BitVec.eq_of_toNat_eq
  rw [toNat_low, Nat.mod_eq_of_lt h]

theorem low_low (key : Word) : low (low key) = low key := by
  apply low_of_lt
  rw [toNat_low]
  exact Nat.mod_lt _ (by decide)

theorem getLsbD_low (key : Word) (i : ℕ) :
    (low key).getLsbD i = (key.getLsbD i && decide (i < 31)) := by
  have hmask : (0x7fffffff#32).getLsbD i = decide (i < 31) := by
    rw [BitVec.getLsbD_ofNat, show 0x7fffffff = 2 ^ 31 - 1 by decide, Nat.testBit_two_pow_sub_one]
    by_cases hi : i < 31
    · simp [hi, Nat.lt_succ_of_lt hi]
    · simp [hi]
  rw [low, BitVec.getLsbD_and, hmask]

theorem getLsbD_bit {i : ℕ} (hi : i < 32) (j : ℕ) :
    (1#32 <<< i).getLsbD j = decide (i = j) := by
  rw [← BitVec.twoPow_eq, BitVec.getLsbD_twoPow]
  simp [hi]

/-- Two keys have the same list key exactly when they differ at most in
the bit that `reverseRegularKey` sets. -/
theorem reverseRegularKey_eq_iff {k k' : Word} :
    reverseRegularKey k = reverseRegularKey k' ↔ low k = low k' := by
  constructor
  · intro h
    have hset := reverse_injective h
    apply BitVec.eq_of_getLsbD_eq
    intro i hi
    have hbit : (k ||| 1#32 <<< 31).getLsbD i = (k' ||| 1#32 <<< 31).getLsbD i := by rw [hset]
    rw [BitVec.getLsbD_or, BitVec.getLsbD_or, getLsbD_bit (by decide)] at hbit
    rw [getLsbD_low, getLsbD_low]
    by_cases hlt : i < 31
    · simpa [hlt, (Nat.ne_of_lt hlt).symm] using hbit
    · simp [hlt]
  · intro h
    rw [reverseRegularKey, reverseRegularKey]
    congr 1
    apply BitVec.eq_of_getLsbD_eq
    intro i hi
    have hbit : (low k).getLsbD i = (low k').getLsbD i := by rw [h]
    rw [getLsbD_low, getLsbD_low] at hbit
    rw [BitVec.getLsbD_or, BitVec.getLsbD_or, getLsbD_bit (by decide)]
    by_cases hlt : i < 31
    · simpa [hlt, (Nat.ne_of_lt hlt).symm] using hbit
    · simp [show 31 = i by omega]

theorem reverseRegularKey_low (key : Word) :
    reverseRegularKey (low key) = reverseRegularKey key :=
  reverseRegularKey_eq_iff.mpr (low_low key)

/-- No regular key is the dummy key of a bucket. -/
theorem reverseRegularKey_ne_reverseDummyKey {k b : Word} (hb : b.toNat < 2 ^ 31) :
    reverseRegularKey k ≠ reverseDummyKey b := by
  intro h
  have hset := reverse_injective h
  have hone : (k ||| 1#32 <<< 31).getLsbD 31 = true := by
    rw [BitVec.getLsbD_or, getLsbD_bit (by decide)]
    simp
  have hzero : b.getLsbD 31 = false := Nat.testBit_lt_two_pow hb
  rw [hset, hzero] at hone
  cases hone

/-! ## Buckets -/

/-- The bits of a bucket number are among those of the keys it holds. -/
theorem umod_and_or {k size : Word} {i : ℕ} (hsize : size.toNat = 2 ^ i) (m : Word) :
    k % size &&& (k ||| m) = k % size := by
  apply BitVec.eq_of_getLsbD_eq
  intro j hj
  have hbit : (k % size).getLsbD j = (decide (j < i) && k.getLsbD j) := by
    rw [← BitVec.testBit_toNat, BitVec.toNat_umod, hsize, Nat.testBit_mod_two_pow,
      BitVec.testBit_toNat]
  rw [BitVec.getLsbD_and, BitVec.getLsbD_or, hbit]
  cases k.getLsbD j <;> simp

theorem toNat_bucket_lt {k size : Word} {i : ℕ} (hsize : size.toNat = 2 ^ i) :
    (k % size).toNat < 2 ^ i := by
  rw [BitVec.toNat_umod, hsize]
  exact Nat.mod_lt _ (Nat.two_pow_pos i)

/-- A key comes behind the dummy node of its bucket. -/
theorem reverseDummyKey_lt_reverseRegularKey {k size : Word} {i : ℕ} (hi : i < 32)
    (hsize : size.toNat = 2 ^ i) : reverseDummyKey (k % size) < reverseRegularKey k := by
  refine reverse_lt (umod_and_or hsize _) fun heq => ?_
  have hlt : (k % size).toNat < 2 ^ 31 :=
    lt_of_lt_of_le (toNat_bucket_lt hsize) (Nat.pow_le_pow_right (by decide) (by omega))
  exact reverseRegularKey_ne_reverseDummyKey (k := k) hlt (congrArg reverse heq.symm)

section

variable {b : Word} (hb : b ≠ 0#32)

include hb

theorem getLsbD_getParent (i : ℕ) :
    (getParent b).getLsbD i = (b.getLsbD i && decide (31 - b.clz.toNat ≠ i)) := by
  have htop : b.getLsbD (31 - b.clz.toNat) = true :=
    BitVec.getLsbD_true_clz_of_ne_zero (by decide) hb
  rw [getParent, BitVec.getLsbD_xor, getLsbD_bit (by omega)]
  by_cases hi : 31 - b.clz.toNat = i
  · subst hi
    simp [htop]
  · simp [hi]

theorem getParent_and : getParent b &&& b = getParent b := by
  apply BitVec.eq_of_getLsbD_eq
  intro i hi
  rw [BitVec.getLsbD_and, getLsbD_getParent hb]
  cases b.getLsbD i <;> simp

theorem getParent_ne : getParent b ≠ b := by
  intro heq
  have htop : b.getLsbD (31 - b.clz.toNat) = true :=
    BitVec.getLsbD_true_clz_of_ne_zero (by decide) hb
  have hunset := getLsbD_getParent hb (31 - b.clz.toNat)
  rw [heq, htop] at hunset
  simp at hunset

/-- A bucket comes behind the bucket that it splits. -/
theorem reverseDummyKey_getParent_lt : reverseDummyKey (getParent b) < reverseDummyKey b :=
  reverse_lt (getParent_and hb) (getParent_ne hb)

theorem getParent_lt : getParent b < b :=
  lt_of_le_of_ne (le_of_and_eq (getParent_and hb)) (getParent_ne hb)

end

end HashTable

end HttpServer
