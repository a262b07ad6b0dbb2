import HttpServer.HashTableLin
import HttpServer.HashTablePhantom
import HttpServer.KVConnection

/-!
# What the key-value service answers

`KVServerConnection::handleRequest` (kv_connection.cpp) reads a key from the
address of the request, looks it up in the table that `KVService` has built
(kv_service.cpp), and answers with what it finds. The connections of the
service do this at the same time, and nothing else is done to the table,
so a lookup returns what the table was built with (`lookups_answered`).

The address is read with `>>`, which gives any `int`, or leaves the
variable as it is when there is nothing but white space; the table tells
keys apart by their low 31 bits. So it is known for every address what
comes of the request (`request_replies`): of the 500 keys only 0 gets an
answer, the value of any other does not fit in the array that it is
formatted in.
-/

namespace HttpServer

namespace KVService

open HashTable HashTable.Threads HttpConnection Histories
open LockFreeList (Addr)
open LockFreeList.Seq (Heap lookup_spec)
open HttpServer.Parser (isSpace isDigit decimal digit_ne)
open KVConnection (intText)

/-! ## The key of an address -/

/-- `is >> key` for an `int`: white space, a sign, decimal digits. No digits
give 0, a number that does not fit the nearest one that does; without a
character behind the white space nothing is assigned. -/
def extractInt (s : List UInt8) : Option ℤ :=
  let s := s.dropWhile isSpace
  if s = [] then none
  else
    let neg := s.head? = some 45
    let s := if s.head? = some 45 ∨ s.head? = some 43 then s.tail else s
    let n : ℤ := decimal (s.takeWhile isDigit)
    some (max (-2 ^ 31) (min (2 ^ 31 - 1) (if neg then -n else n)))

/-- `keyToSearch`. -/
def keyToSearch (address : List UInt8) : Option ℤ := extractInt address

theorem takeWhile_sizeText (n : ℕ) : (sizeText n).takeWhile isDigit = sizeText n := by
  refine List.takeWhile_eq_self_iff.mpr fun c hc => ?_
  obtain ⟨d, hd, rfl⟩ := sizeText_digits hc
  exact (digit_byte d hd).2

theorem keyToSearch_eq_none_iff (address : List UInt8) :
    keyToSearch address = none ↔ ∀ c ∈ address, isSpace c = true := by
  rw [keyToSearch, extractInt, ← List.dropWhile_eq_nil_iff]
  dsimp only
  split
  · next h => simp [h]
  · next h => simp [h]

/-- Every key has an address. -/
theorem keyToSearch_intText {v : ℤ} (hlo : -2 ^ 31 ≤ v) (hhi : v < 2 ^ 31) :
    keyToSearch (intText v) = some v := by
  have hclamp : max (-2 ^ 31) (min (2 ^ 31 - 1) v) = v := by omega
  by_cases hv : v < 0
  · have htext : intText v = 45 :: sizeText v.natAbs := if_pos hv
    have habs : -(v.natAbs : ℤ) = v := by omega
    rw [keyToSearch, extractInt, htext, List.dropWhile_cons_of_neg (by decide),
      if_neg (List.cons_ne_nil _ _)]
    simp only [List.head?_cons, true_or, if_true, List.tail_cons, takeWhile_sizeText,
      decimal_sizeText, habs, hclamp]
  · have htext : intText v = sizeText v.natAbs := if_neg hv
    have habs : (v.natAbs : ℤ) = v := by omega
    obtain ⟨c, rest, hcons⟩ := List.exists_cons_of_ne_nil (sizeText_ne_nil v.natAbs)
    obtain ⟨d, hd, hc⟩ := sizeText_digits (n := v.natAbs) (c := c) (by simp [hcons])
    obtain ⟨hspace, hminus, hplus, -, -⟩ := digit_ne (hc ▸ (digit_byte d hd).2)
    have hdigits := takeWhile_sizeText v.natAbs
    have hdecimal := decimal_sizeText v.natAbs
    rw [hcons] at hdigits hdecimal
    rw [keyToSearch, extractInt, htext, hcons, List.dropWhile_cons_of_neg (by simp [hspace]),
      if_neg (List.cons_ne_nil _ _)]
    simp only [List.head?_cons, Option.some.injEq, hminus, hplus, or_self, if_false, hdigits,
      hdecimal, habs, hclamp]

/-! ## The table of the service -/

/-- The value that `buildHashTable` gives to a key. -/
def valueOf (i : ℕ) : ℤ :=
  let value : ℤ := (i * 10 % 100 : ℕ)
  if value < 10 then value + 10 else value

theorem valueOf_bounds (i : ℕ) : 10 ≤ valueOf i := by
  rw [valueOf]
  split <;> omega

/-- What is in a table that was built with these calls. -/
def stock (ops : List Op) : Map := (Map.start.run (ops.map Op.low)).1

theorem map_run_concat (m : Map) (ops : List Op) (op : Op) :
    (m.run (ops ++ [op])).1 = ((m.run ops).1.step op).1 := by
  induction ops generalizing m with
  | nil => rfl
  | cons op' ops ih => exact ih _

/-- The table after the first `n` insertions: 0 keeps the value of the
constructor. -/
theorem lookup_inserted (k : Word) : ∀ {n : ℕ}, n ≤ 500 →
    (Map.start.run ((List.range n).map fun i =>
      Op.insertKey (BitVec.ofNat 32 i) (valueOf i))).1.lookup k
      = if k = 0 then some 0 else if k.toNat < n then some (valueOf k.toNat) else none := by
  intro n
  induction n with
  | zero =>
      intro _
      by_cases hk : k = 0
      · subst hk
        exact Finmap.lookup_singleton_eq
      · rw [if_neg hk, if_neg (Nat.not_lt_zero _)]
        exact Finmap.lookup_eq_none.mpr fun hmem => hk ((mem_start k).mp hmem)
  | succ n ih =>
      intro hn
      have hnat : (BitVec.ofNat 32 n).toNat = n := by
        rw [BitVec.toNat_ofNat, Nat.mod_eq_of_lt (by omega)]
      rw [List.range_succ, List.map_append, List.map_singleton, map_run_concat, Map.step]
      by_cases hkn : k = BitVec.ofNat 32 n
      · subst hkn
        have hlook := ih (by omega)
        rw [hnat, if_neg (lt_irrefl n)] at hlook
        split
        · next hmem =>
            by_cases h0 : BitVec.ofNat 32 n = 0
            · rw [if_pos h0] at hlook ⊢
              exact hlook
            · rw [if_neg h0] at hlook
              exact absurd hmem (Finmap.lookup_eq_none.mp hlook)
        · next hmem =>
            have h0 : BitVec.ofNat 32 n ≠ 0 := by
              intro h0
              rw [if_pos h0] at hlook
              exact hmem (Finmap.mem_of_lookup_eq_some hlook)
            rw [if_neg h0, hnat, if_pos (Nat.lt_succ_self n)]
            exact Finmap.lookup_insert _
      · have hlt : k.toNat < n + 1 ↔ k.toNat < n := by
          have hne : k.toNat ≠ n := fun h => hkn (BitVec.eq_of_toNat_eq (h.trans hnat.symm))
          omega
        simp only [hlt]
        split
        · exact ih (by omega)
        · rw [Finmap.lookup_insert_of_ne _ hkn]
          exact ih (by omega)

theorem lookup_stock (k : Word) :
    (stock buildHashTable).lookup k
      = if k = 0 then some 0
        else if k.toNat < 500 then some (valueOf k.toNat) else none := by
  have hlow : buildHashTable.map Op.low
      = (List.range 500).map fun i => Op.insertKey (BitVec.ofNat 32 i) (valueOf i) := by
    rw [buildHashTable, List.map_map]
    refine List.map_congr_left fun i hi => ?_
    have hi := List.mem_range.mp hi
    have hkey : HashTable.low (BitVec.ofNat 32 i) = BitVec.ofNat 32 i := by
      refine HashTable.low_of_lt ?_
      rw [BitVec.toNat_ofNat, Nat.mod_eq_of_lt (by omega)]
      omega
    simp only [Function.comp_apply, Op.low, hkey, valueOf]
  rw [stock, hlow]
  exact lookup_inserted k le_rfl

/-! ## Bucket 0 -/

section

variable {t t' : Table} {b : Word} {op : Op}

theorem linkDummy_zero {parent : Word} (hb : b ≠ 0) (h : t.linkDummy b parent = some t') :
    t'.bucketAt 0 = t.bucketAt 0 := by
  simp only [Table.linkDummy, Option.bind_eq_bind, Option.bind_eq_some_iff] at h
  obtain ⟨start, -, ⟨h₁, dummy, ins⟩, -, hset⟩ := h
  rw [Table.setBucket] at hset
  obtain ⟨-, hset⟩ := Option.ite_none_right_eq_some.mp hset
  obtain rfl := Option.some.inj hset
  exact List.getElem?_set_ne fun h0 => hb (BitVec.eq_of_toNat_eq h0)

/-- Nothing but the initialization of bucket 0 writes to bucket 0. -/
theorem initializeBucket_zero : ∀ {n : ℕ} {t t' : Table} {b : Word}, IsSet t 0 → b ≠ 0 →
    t.initializeBucket n b = some t' → IsSet t' 0 := by
  intro n
  induction n with
  | zero =>
      intro t t' b _ _ h
      cases h
  | succ n ih =>
      intro t t' b hz hb h
      rw [Table.initializeBucket, if_pos hb] at h
      obtain ⟨p, hp, h⟩ := Option.bind_eq_some_iff.mp h
      cases p with
      | some d' =>
          obtain ⟨d, hd⟩ := hz
          exact ⟨d, (linkDummy_zero hb h).trans hd⟩
      | none =>
          obtain ⟨t₁, hinit, hlink⟩ := Option.bind_eq_some_iff.mp h
          have hparent : getParent b ≠ 0 := by
            intro h0
            obtain ⟨d, hd⟩ := hz
            rw [h0, hd] at hp
            cases hp
          obtain ⟨d, hd⟩ := ih hz hparent hinit
          exact ⟨d, (linkDummy_zero hb hlink).trans hd⟩

theorem bucketFor_zero {data : Word} {start : Option Addr} (hz : IsSet t 0)
    (h : t.bucketFor data = some (t', start)) : IsSet t' 0 := by
  rw [Table.bucketFor] at h
  obtain ⟨-, h⟩ := Option.ite_none_left_eq_some.mp h
  obtain ⟨p, hp, h⟩ := Option.bind_eq_some_iff.mp h
  cases p with
  | some d =>
      obtain ⟨t₁, hsame, h⟩ := Option.bind_eq_some_iff.mp h
      obtain rfl := Option.some.inj hsame
      obtain ⟨p', -, hres⟩ := Option.bind_eq_some_iff.mp h
      obtain ⟨rfl, -⟩ := Prod.mk.inj (Option.some.inj hres)
      exact hz
  | none =>
      obtain ⟨t₁, hinit, h⟩ := Option.bind_eq_some_iff.mp h
      obtain ⟨p', -, hres⟩ := Option.bind_eq_some_iff.mp h
      obtain ⟨rfl, -⟩ := Prod.mk.inj (Option.some.inj hres)
      refine initializeBucket_zero hz (fun h0 => ?_) hinit
      obtain ⟨d, hd⟩ := hz
      rw [h0, hd] at hp
      cases hp

theorem insertKey_zero {data : Word} {value : ℤ} {inserted : Bool} (hz : IsSet t 0)
    (h : t.insertKey data value = some (t', inserted)) : IsSet t' 0 := by
  simp only [Table.insertKey, Option.bind_eq_bind, Option.bind_eq_some_iff] at h
  obtain ⟨⟨t₁, start⟩, hfor, ⟨h₁, p, ins⟩, -, hres⟩ := h
  obtain ⟨d, hd⟩ := bucketFor_zero hz hfor
  cases ins with
  | false =>
      obtain ⟨rfl, -⟩ := Prod.mk.inj (Option.some.inj hres)
      exact ⟨d, hd⟩
  | true =>
      obtain ⟨rfl, -⟩ := Prod.mk.inj (Option.some.inj hres)
      exact ⟨d, bucketAt_grow hd⟩

theorem step_zero {answer : Answer} (hz : IsSet t 0) (h : t.step op = some (t', answer)) :
    IsSet t' 0 := by
  cases op with
  | insertKey data value =>
      obtain ⟨⟨t₁, r⟩, hins, hres⟩ := Option.map_eq_some_iff.mp h
      obtain ⟨rfl, -⟩ := Prod.mk.inj hres
      exact insertKey_zero hz hins
  | removeKey data =>
      obtain ⟨⟨t₁, r⟩, hrem, hres⟩ := Option.map_eq_some_iff.mp h
      obtain ⟨rfl, -⟩ := Prod.mk.inj hres
      simp only [Table.removeKey, Option.bind_eq_bind, Option.bind_eq_some_iff] at hrem
      obtain ⟨⟨t₂, start⟩, hfor, ⟨h₁, removed⟩, -, hres⟩ := hrem
      obtain ⟨d, hd⟩ := bucketFor_zero hz hfor
      cases removed <;>
      · obtain ⟨rfl, -⟩ := Prod.mk.inj (Option.some.inj hres)
        exact ⟨d, hd⟩
  | findKey data value =>
      simp only [Table.step, Table.findKey, Option.bind_eq_bind, Option.bind_eq_some_iff] at h
      obtain ⟨⟨t₂, start⟩, hfor, ⟨h₁, found, v⟩, -, hres⟩ := h
      obtain ⟨d, hd⟩ := bucketFor_zero hz hfor
      obtain ⟨rfl, -⟩ := Prod.mk.inj (Option.some.inj hres)
      exact ⟨d, hd⟩

theorem run_zero (ops : List Op) : ∀ {t : Table} {answers : List Answer}, IsSet t 0 →
    t.run ops = some (t', answers) → IsSet t' 0 := by
  induction ops with
  | nil =>
      intro t answers hz h
      obtain ⟨rfl, -⟩ := Prod.mk.inj (Option.some.inj h)
      exact hz
  | cons op ops ih =>
      intro t answers hz h
      simp only [Table.run, Option.bind_eq_bind, Option.bind_eq_some_iff] at h
      obtain ⟨⟨t₁, answer⟩, hstep, ⟨t₂, answers'⟩, hrun, hres⟩ := h
      obtain ⟨rfl, -⟩ := Prod.mk.inj (Option.some.inj hres)
      exact ih (step_zero hz hstep) hrun

end

/-- A table that one thread has made can be shared. -/
theorem shared_of_rep {t : Table} {m : Map} {nodes : List Addr} (hr : Rep t m nodes)
    (hz : IsSet t 0) : Shared t nodes := by
  obtain ⟨i, -, hi, hsize⟩ := hr.size
  refine ⟨hr.list, ⟨i, by omega, hsize⟩, hr.buckets.ge, fun n d hn => ?_, hz⟩
  have hlt : n < t.size.toNat := hr.buckets ▸ (List.getElem?_eq_some_iff.mp hn).1
  have hnat : (BitVec.ofNat 32 n).toNat = n := by
    rw [BitVec.toNat_ofNat, Nat.mod_eq_of_lt (Nat.lt_trans hlt t.size.isLt)]
  obtain ⟨hmem, hdata⟩ := hr.dummy (BitVec.ofNat 32 n) d (by rwa [Table.bucketAt, hnat])
  exact ⟨hlt, hnat.symm ▸ hlt, hmem, hdata⟩

/-! ## Lookups -/

/-- The threads that handle the connections, when the table has been built
with these calls. -/
def service (ops : List Op) : Lts State Act where
  init s := (∃ h t answers, lockFreeHashTable h = some t ∧ t.run ops = some (s.table, answers))
    ∧ ∀ tid, s.pc tid = .idle none
  step := Threads.step

/-- A connection only looks keys up. -/
def Lookups (_ : State) : Act → Prop
  | .call _ op => ∃ data value, op = .findKey data value
  | .run _ => True

theorem built_spec (h : Heap Word) (ops : List Op) :
    ∃ t t' answers nodes, lockFreeHashTable h = some t ∧ t.run ops = some (t', answers)
      ∧ Shared t' nodes ∧ Maps t'.heap nodes (stock ops) := by
  obtain ⟨t, t', answers, nodes, hnew, hrun, -, hr⟩ := run_new h ops
  exact ⟨t, t', answers, nodes, hnew, hrun,
    shared_of_rep hr (run_zero _ (lockFreeHashTable_zero hnew) hrun), .of_rep hr⟩

theorem refines_built {ops : List Op} {s : State} (h : (service ops).init s) :
    Refines s (Atomic.start (stock ops)) := by
  obtain ⟨⟨heap, t, answers, hnew, hrun⟩, hidle⟩ := h
  obtain ⟨t₁, t', answers', nodes, hnew', hrun', hs, hm⟩ := built_spec heap ops
  obtain rfl := Option.some.inj (hnew'.symm.trans hnew)
  obtain ⟨rfl, -⟩ := Prod.mk.inj (Option.some.inj (hrun'.symm.trans hrun))
  refine ⟨nodes, ⟨hs, fun tid => ?_⟩, hm, fun tid => ?_⟩
  · rw [hidle tid]
    trivial
  · rw [hidle tid]
    rfl

theorem spec_findKey (m : Map) (data : Word) (value : Option ℤ) :
    spec m (.findKey data value) = (m, ((m.lookup (HashTable.low data)).isSome,
      (m.lookup (HashTable.low data)).elim value fun v => value.map fun _ => v)) := by
  rw [spec, Op.low, Map.step]
  cases m.lookup (HashTable.low data) <;> rfl

/-- Whatever the connections do at the same time, a lookup returns what
the table was built with. -/
theorem lookups_answered {ops : List Op} {H : List (Event Threads.Tid Op Answer)} {s : State}
    (h : Shown (service ops) Lookups shows H s) {i j : ℕ} {answer : Answer}
    (hret : Returns H i j answer) {tid : Threads.Tid} {op : Op}
    (hcall : H[i]? = some (.call tid op)) :
    answer = (spec (stock ops) op).2 := by
  have hfind : ∀ ev ∈ H, ∀ tid op, ev = .call tid op → ∃ data value, op = .findKey data value := by
    refine h.forall_mem fun s a s' hok _ ev hev tid op hop => ?_
    subst hop
    cases a with
    | call tid' op' =>
        obtain ⟨-, rfl⟩ := Event.call.inj (List.mem_singleton.mp hev)
        exact hok
    | run tid' =>
        obtain ⟨a, -, ha⟩ := List.mem_map.mp hev
        cases ha
  obtain ⟨order, -, hlin, -, -⟩ := h.linearization (R := Refines) (fun _ h => refines_built h)
    fun _ _ _ _ hr _ hs => hr.step hs
  obtain ⟨e, he, rfl, rfl⟩ := hlin.complete i j answer hret
  -- the map stays as it is
  have hsame : ∀ c ∈ order.map Entry.call, (spec (stock ops) c).1 = stock ops := by
    intro c hc
    obtain ⟨e', he', rfl⟩ := List.mem_map.mp hc
    obtain ⟨u, hu⟩ := hlin.made e' he'
    obtain ⟨data, value, hop⟩ := hfind _ (List.mem_of_getElem? hu) u e'.call rfl
    rw [hop, spec_findKey]
  have hlegal := hlin.legal
  rw [Calls.answers_of_unchanged hsame, List.map_map] at hlegal
  obtain ⟨u, hu⟩ := hlin.made e he
  obtain ⟨-, rfl⟩ := Event.call.inj (Option.some.inj (hcall.symm.trans hu))
  exact (List.map_inj_left.mp hlegal e he).symm

/-! ## Requests -/

/-- What comes of a request. -/
inductive Reply where
  /-- The service is stopped. -/
  | stop
  /-- `keyToSearch` is read without having been set. -/
  | unset
  /-- `sprintf` writes behind the end of `temp`. -/
  | overrun
  | wrote (out : Buffer)

/-- `hash_table_->findKey(keyToSearch, &value)`. -/
def lookupOf (key : ℤ) : Op := .findKey (BitVec.ofInt 32 key) (some 0)

/-- `value`, if the key exists. -/
def found (answer : Answer) : Option ℤ := if answer.1 then answer.2 else none

/-- The two branches that answer. -/
def Reply.ofAnswer : Option Buffer → Reply
  | none => .overrun
  | some out => .wrote out

/-- `handleRequest` with the answers of the table. -/
def handleRequest (heap : ℕ → ℕ → UInt8) (out : Buffer) (address : List UInt8)
    (findKey : Op → Answer) : Reply :=
  if address = ascii "quit" then .stop
  else
    match keyToSearch address with
    | none => .unset
    | some key => .ofAnswer (KVConnection.answer heap out (found (findKey (lookupOf key))))

theorem low_ofInt (key : ℤ) :
    ((HashTable.low (BitVec.ofInt 32 key)).toNat : ℤ) = key % 2 ^ 31 := by
  rw [toNat_low, BitVec.toNat_ofInt]
  omega

/-- What the table of the service holds for a key. -/
theorem found_lookup (key : ℤ) :
    found (spec (stock buildHashTable) (lookupOf key)).2
      = if key % 2 ^ 31 = 0 then some 0
        else if key % 2 ^ 31 < 500 then some (valueOf (key % 2 ^ 31).toNat) else none := by
  have hnat := low_ofInt key
  have hzero : HashTable.low (BitVec.ofInt 32 key) = 0 ↔ key % 2 ^ 31 = 0 := by
    rw [← BitVec.toNat_inj, show (0 : Word).toNat = 0 from rfl]
    omega
  have hlt : (key % 2 ^ 31).toNat < 500 ↔ key % 2 ^ 31 < 500 := by omega
  have htext : (HashTable.low (BitVec.ofInt 32 key)).toNat = (key % 2 ^ 31).toNat := by omega
  rw [lookupOf, spec_findKey, lookup_stock]
  simp only [hzero, htext, hlt]
  split
  · rfl
  · split <;> rfl

/-- What is known of the reply to the request for an address. -/
structure Replies (out : Buffer) (address : List UInt8) (reply : Reply) : Prop where
  quit : address = ascii "quit" → reply = .stop
  blank : (∀ c ∈ address, isSpace c = true) → reply = .unset
  zero : ∀ key, address ≠ ascii "quit" → keyToSearch address = some key → key % 2 ^ 31 = 0 →
    ∃ out', reply = .wrote out' ∧ out'.Inv
      ∧ out'.content = out.content ++ KVConnection.valueText 0
  stocked : ∀ key, address ≠ ascii "quit" → keyToSearch address = some key →
    0 < key % 2 ^ 31 → key % 2 ^ 31 < 500 → reply = .overrun
  other : ∀ key, address ≠ ascii "quit" → keyToSearch address = some key →
    500 ≤ key % 2 ^ 31 → reply = .wrote (writeBadRequest out)

/-- **Every request of the service**, however the connections are
interleaved: the key 0, and each number with the same low 31 bits, is
answered with the value 0; the other keys of the service overrun the array
that their value is formatted in; what is not a key is a bad request. -/
theorem request_replies (heap : ℕ → ℕ → UInt8) {out : Buffer} (hout : out.Inv)
    {H : List (Event Threads.Tid Op Answer)} {s : State}
    (h : Shown (service buildHashTable) Lookups shows H s) (address : List UInt8)
    (findKey : Op → Answer)
    (hfind : ∀ key, address ≠ ascii "quit" → keyToSearch address = some key → ∃ tid i j,
      H[i]? = some (.call tid (lookupOf key)) ∧ Returns H i j (findKey (lookupOf key))) :
    Replies out address (handleRequest heap out address findKey) := by
  have hreply : ∀ key, address ≠ ascii "quit" → keyToSearch address = some key →
      handleRequest heap out address findKey
        = .ofAnswer (KVConnection.answer heap out (if key % 2 ^ 31 = 0 then some 0
            else if key % 2 ^ 31 < 500 then some (valueOf (key % 2 ^ 31).toNat) else none)) := by
    intro key hquit hkey
    obtain ⟨tid, i, j, hcall, hret⟩ := hfind key hquit hkey
    rw [handleRequest, if_neg hquit, hkey, ← found_lookup, ← lookups_answered h hret hcall]
  refine ⟨fun hquit => if_pos hquit, fun hblank => ?_, fun key hquit hkey h0 => ?_,
    fun key hquit hkey hpos hlt => ?_, fun key hquit hkey hge => ?_⟩
  · have hquit : address ≠ ascii "quit" := by
      rintro rfl
      exact absurd (hblank 113 (by decide)) (by decide)
    rw [handleRequest, if_neg hquit, (keyToSearch_eq_none_iff address).mpr hblank]
  · obtain ⟨out', hwrite, hinv, hcontent⟩ :=
      KVConnection.writeValue_spec heap hout ((KVConnection.fits_iff 0).mpr ⟨le_rfl, by omega⟩)
    refine ⟨out', ?_, hinv, hcontent⟩
    rw [hreply key hquit hkey, if_pos h0, KVConnection.answer, hwrite,
      Reply.ofAnswer]
  · have hlong : ¬KVConnection.Fits (valueOf (key % 2 ^ 31).toNat) := by
      have hten := valueOf_bounds (key % 2 ^ 31).toNat
      rw [KVConnection.fits_iff]
      omega
    rw [hreply key hquit hkey, if_neg hpos.ne', if_pos hlt, KVConnection.answer,
      KVConnection.writeValue, KVConnection.temp, if_neg hlong]
    rfl
  · have hne : key % 2 ^ 31 ≠ 0 := by omega
    rw [hreply key hquit hkey, if_neg hne, if_neg (not_lt.mpr hge), KVConnection.answer,
      Reply.ofAnswer]

theorem shown_run {ops : List Op} {H : List (Event Threads.Tid Op Answer)} {t : Table}
    {pcs : Threads.Tid → Threads.Pc} (h : Shown (service ops) Lookups shows H ⟨t, pcs⟩)
    (tid : Threads.Tid) {t' : Table} {pc pc' : Threads.Pc} (hpc : pcs tid = pc)
    (hnext : Threads.next t pc = some (t', pc')) :
    Shown (service ops) Lookups shows (H ++ pc'.returned.toList.map (.ret tid))
      ⟨t', Function.update pcs tid pc'⟩ := by
  have hstep : Threads.step ⟨t, pcs⟩ (.run tid) = some ⟨t', Function.update pcs tid pc'⟩ := by
    subst hpc
    rw [Threads.step, hnext]
    rfl
  have hok : Lookups ⟨t, pcs⟩ (.run tid) := trivial
  have hshown := h.step _ hok hstep
  simp only [shows, Function.update_self] at hshown
  exact hshown

/-- A key with the low 31 bits of 0 belongs to bucket 0. -/
theorem lookupOf_bucket {t : Table} {nodes : List Addr} (hs : Shared t nodes) (key : ℤ)
    (hkey : (BitVec.ofInt 32 key).toNat % 2 ^ 31 = 0) : (lookupOf key).data % t.size = 0 := by
  obtain ⟨i, hi, hpow⟩ := hs.size
  apply BitVec.eq_of_toNat_eq
  rw [BitVec.toNat_umod, hpow]
  exact Nat.mod_eq_zero_of_dvd (Nat.dvd_trans (Nat.pow_dvd_pow 2 (by omega))
    (Nat.dvd_of_mod_eq_zero hkey))

theorem next_route {t : Table} {nodes : List Addr} (hs : Shared t nodes) {op : Op}
    (hbucket : op.data % t.size = 0) : Threads.next t (.route op) = some (t, .test op 0) := by
  have hsize : t.size ≠ 0 := by
    obtain ⟨i, -, hpow⟩ := hs.size
    intro h0
    rw [h0] at hpow
    exact absurd hpow (Nat.two_pow_pos i).ne
  rw [Threads.next, if_neg hsize, hbucket]

/-- The call on the list for a key of bucket 0. -/
theorem listStep_lookup {t : Table} {nodes : List Addr} (hs : Shared t nodes) {d : Addr}
    (hd : t.bucketAt 0 = some (some d)) {key : ℤ} (hbucket : (lookupOf key).data % t.size = 0) :
    ∃ heap answer, Threads.listStep t (some d) (lookupOf key)
        = some ({ t with heap }, .idle (some answer)) ∧ Shared { t with heap } nodes := by
  have hroute := (Prod.mk.inj (Option.some.inj (next_route hs hbucket))).2
  have hplace := (route_spec hs (lookupOf key)).place
  rw [hroute] at hplace
  have hanchor : Anchored t nodes (reverseRegularKey (lookupOf key).data) (some d) :=
    ⟨0, d, rfl, hs.bucketAt_dummy hd, hplace.before⟩
  have hshared := (hs.heap (hs.list.enter (some d)) fun b d' hd' => ⟨hd'.mem, rfl⟩).1
  have hlookup : ∃ found value, LockFreeList.Seq.lookup t.heap
      (reverseRegularKey (lookupOf key).data) (some 0) (some d)
        = some (t.heap.enter (some d), found, value) := by
    rcases lookup_spec hs.list (some 0) hanchor.begins with ⟨a, -, -, hres⟩ | ⟨-, hres⟩
    · exact ⟨_, _, hres⟩
    · exact ⟨_, _, hres⟩
  obtain ⟨found, value, hres⟩ := hlookup
  refine ⟨t.heap.enter (some d), (found, value), ?_, hshared⟩
  simp only [lookupOf, Threads.listStep, Op.data] at hres ⊢
  rw [hres]
  rfl

theorem lookups_call (s : State) (tid : Threads.Tid) (key : ℤ) :
    Lookups s (.call tid (lookupOf key)) :=
  ⟨_, _, rfl⟩

/-- Two connections ask for the keys 0 and -2^31 at the same time, each a
step in turn; the second one has its answer first. -/
theorem twoLookups_shown (ops : List Op) : ∃ s a b,
    Shown (service ops) Lookups shows [.call 0 (lookupOf 0), .call 1 (lookupOf (-2 ^ 31)),
      .ret 1 b, .ret 0 a] s := by
  obtain ⟨t, t', answers, nodes, hnew, hrun, hs, -⟩ := built_spec blank ops
  obtain ⟨d, hd⟩ := hs.zero
  have hzero := lookupOf_bucket hs 0 (by decide)
  have hhigh := lookupOf_bucket hs (-2 ^ 31) (by decide)
  have htest : ∀ op, Threads.next t' (.test op 0) = some (t', .start op 0) := fun op => by
    rw [Threads.next, hd]
    rfl
  have hstart : ∀ op, Threads.next t' (.start op 0) = some (t', .list op (some d)) := fun op => by
    rw [Threads.next, hd]
    rfl
  obtain ⟨heap₁, b, hlookup₁, hs₁⟩ := listStep_lookup hs hd hhigh
  obtain ⟨heap₀, a, hlookup₀, -⟩ := listStep_lookup hs₁ hd hzero
  have hinit : Shown (service ops) Lookups shows [] ⟨t', fun _ => .idle none⟩ :=
    .init ⟨⟨blank, t, answers, hnew, hrun⟩, fun _ => rfl⟩
  have hcall₀ := hinit.step _ (lookups_call _ 0 0) rfl
  have hcall₁ := hcall₀.step _ (lookups_call _ 1 (-2 ^ 31)) rfl
  have hroute₀ := shown_run hcall₁ 0 rfl (next_route hs hzero)
  have hroute₁ := shown_run hroute₀ 1 rfl (next_route hs hhigh)
  have htest₀ := shown_run hroute₁ 0 rfl (htest _)
  have htest₁ := shown_run htest₀ 1 rfl (htest _)
  have hstart₀ := shown_run htest₁ 0 rfl (hstart _)
  have hstart₁ := shown_run hstart₀ 1 rfl (hstart _)
  have hlist₁ := shown_run hstart₁ 1 rfl hlookup₁
  have hlist₀ := shown_run hlist₁ 0 rfl hlookup₀
  exact ⟨_, a, b, hlist₀⟩

/-- Both addresses get the value that nobody has inserted. -/
theorem zero_replied : ∃ findKey₀ findKey₁ out₀ out₁,
    handleRequest (fun _ _ => 0) (Buffer.new fun _ _ => 0) (intText 0) findKey₀ = .wrote out₀
      ∧ out₀.content = KVConnection.valueText 0
      ∧ handleRequest (fun _ _ => 0) (Buffer.new fun _ _ => 0) (intText (-2 ^ 31)) findKey₁
        = .wrote out₁
      ∧ out₁.content = KVConnection.valueText 0 := by
  obtain ⟨s, a, b, hshown⟩ := twoLookups_shown buildHashTable
  have hkey₀ : keyToSearch (intText 0) = some 0 := keyToSearch_intText (by omega) (by omega)
  have hkey₁ : keyToSearch (intText (-2 ^ 31)) = some (-2 ^ 31) :=
    keyToSearch_intText (by omega) (by omega)
  obtain ⟨hnew, hnil⟩ := Buffer.new_inv fun _ _ => 0
  have hreplies₀ := request_replies (fun _ _ => 0) hnew hshown (intText 0) (fun _ => a) (by
    intro key _ hkey'
    obtain rfl := Option.some.inj (hkey₀.symm.trans hkey')
    refine ⟨0, 0, 3, rfl, 0, lookupOf 0, ⟨rfl, fun k e hk he => ?_⟩, rfl⟩
    obtain ⟨hlt, rfl⟩ := List.getElem?_eq_some_iff.mp he
    have hlt : k < 3 := hlt
    obtain rfl | rfl : k = 1 ∨ k = 2 := by omega
    · exact Nat.one_ne_zero
    · exact Nat.one_ne_zero)
  have hreplies₁ := request_replies (fun _ _ => 0) hnew hshown (intText (-2 ^ 31)) (fun _ => b) (by
    intro key _ hkey'
    obtain rfl := Option.some.inj (hkey₁.symm.trans hkey')
    refine ⟨1, 1, 2, rfl, 1, lookupOf (-2 ^ 31), ⟨rfl, fun k e hk he => ?_⟩, rfl⟩
    obtain ⟨hlt, -⟩ := List.getElem?_eq_some_iff.mp he
    have hlt : k < 2 := hlt
    omega)
  obtain ⟨out₀, hreply₀, -, hcontent₀⟩ := hreplies₀.zero 0 (by decide) hkey₀ rfl
  obtain ⟨out₁, hreply₁, -, hcontent₁⟩ := hreplies₁.zero (-2 ^ 31) (by decide) hkey₁ (by decide)
  rw [hnil, List.nil_append] at hcontent₀ hcontent₁
  exact ⟨_, _, out₀, out₁, hreply₀, hcontent₀, hreply₁, hcontent₁⟩

end KVService

end HttpServer
