import Mathlib.Data.Finset.Card
import HttpServer.Lib.Chain

/-!
# The list-based set

`ListBasedSet` (list_set.cpp) keeps ints in a singly linked list. The model
has the nodes by address and the set of the addresses that are allocated:
`malloc` may return any address that is not, one that was freed before
included. A use of `NULL`, of a pointer that was never assigned (both are
`none`) or of a freed node has no result. The loops carry fuel.

`insert` asks for `sizeof(struct node*)` bytes, not for a node's. `malloc`
may give more than it is asked for; where it does not give enough for a node
the store into `next` is behind the block's end, and has no result.

The mutex is held for the length of a call and is left out.
-/

namespace HttpServer

namespace ListBasedSet

open Chain

abbrev Addr := ℕ

/-- `struct node`. -/
structure Node where
  data : ℤ
  next : Option Addr
deriving DecidableEq, Repr

/-- `sizeof(struct node)`: the int, four bytes of padding and the pointer. -/
def sizeofNode : ℕ := 16

/-- `sizeof(struct node*)`. -/
def sizeofNodePtr : ℕ := 8

/-- What `malloc` gives. -/
structure Block where
  addr : Addr
  bytes : ℕ

structure Heap where
  head : Option Addr
  node : Addr → Node
  live : Finset Addr
  /-- How often `malloc` was called. -/
  mallocs : ℕ

/-- What `malloc` returns, by the number of the call: the address of a block,
and how many bytes the block has when `n` are asked for. -/
structure Malloc where
  addr : ℕ → Finset Addr → Addr
  fresh : ∀ k live, addr k live ∉ live
  bytes : ℕ → ℕ → ℕ
  enough : ∀ k n, n ≤ bytes k n

namespace Heap

/-- The constructor. -/
def new (node : Addr → Node) : Heap := ⟨none, node, ∅, 0⟩

def read (h : Heap) : Option Addr → Option Node
  | none => none
  | some a => if a ∈ h.live then some (h.node a) else none

def setData (h : Heap) (a : Addr) (data : ℤ) : Heap :=
  { h with node := Function.update h.node a { h.node a with data } }

def setNext (h : Heap) (a : Addr) (next : Option Addr) : Heap :=
  { h with node := Function.update h.node a { h.node a with next } }

/-- The assignment `p->next = next`. -/
def storeNext (h : Heap) (p next : Option Addr) : Option Heap :=
  match p with
  | none => none
  | some a => if a ∈ h.live then some (h.setNext a next) else none

def malloc (h : Heap) (M : Malloc) (n : ℕ) : Heap × Block :=
  let a := M.addr h.mallocs h.live
  ({ h with live := insert a h.live, mallocs := h.mallocs + 1 }, ⟨a, M.bytes h.mallocs n⟩)

/-- The assignment `newnode->data = value`, within the bytes asked for. -/
def initData (h : Heap) (newnode : Block) (value : ℤ) : Heap := h.setData newnode.addr value

/-- The assignment `newnode->next = next`. -/
def initNext (h : Heap) (newnode : Block) (next : Option Addr) : Option Heap :=
  if sizeofNode ≤ newnode.bytes then some (h.setNext newnode.addr next) else none

def free (h : Heap) (a : Addr) : Option Heap :=
  if a ∈ h.live then some { h with live := h.live.erase a } else none

/-- How many rounds the loops may take: more than there are nodes. -/
def fuel (h : Heap) : ℕ := h.live.card + 1

/-! ## The calls -/

/-- What the loop of `insert` leaves in its variables. -/
structure Search where
  current : Option Addr
  previous : Option Addr
  found : Bool

def insertLoop (h : Heap) (value : ℤ) : ℕ → Option Addr → Option Addr → Option Search
  | 0, _, _ => none
  | _ + 1, none, previous => some ⟨none, previous, false⟩
  | n + 1, some current, previous => do
      let node ← h.read (some current)
      if node.data > value then some ⟨some current, previous, false⟩
      else if node.data = value then some ⟨some current, previous, true⟩
      else insertLoop h value n node.next (some current)

def insert (M : Malloc) (h : Heap) (value : ℤ) : Option (Heap × Bool) := do
  let s ← h.insertLoop value h.fuel h.head none
  if s.found then some (h, false)
  else if s.current = h.head then
    let (h, newnode) := h.malloc M sizeofNodePtr
    let h := h.initData newnode value
    let h ← h.initNext newnode h.head
    some ({ h with head := some newnode.addr }, true)
  else if s.current ≠ none then
    let (h, newnode) := h.malloc M sizeofNodePtr
    let h := h.initData newnode value
    let node ← h.read s.previous
    let h ← h.initNext newnode node.next
    let h ← h.storeNext s.previous (some newnode.addr)
    some (h, true)
  else
    let (h, newnode) := h.malloc M sizeofNodePtr
    let h := h.initData newnode value
    let h ← h.initNext newnode none
    let h ← h.storeNext s.previous (some newnode.addr)
    some (h, true)

/-- The loop of `remove`, which returns from its middle. -/
def removeLoop (h : Heap) (value : ℤ) : ℕ → Option Addr → Option Addr → Option (Heap × Bool)
  | 0, _, _ => none
  | _ + 1, none, _ => some (h, false)
  | n + 1, some current, previous => do
      let node ← h.read (some current)
      if node.data = value then
        let h ← if some current = h.head then some { h with head := none }
          else h.storeNext previous node.next
        let h ← h.free current
        some (h, true)
      else removeLoop h value n node.next (some current)

def remove (h : Heap) (value : ℤ) : Option (Heap × Bool) := h.removeLoop value h.fuel h.head none

def lookupLoop (h : Heap) (value : ℤ) : ℕ → Option Addr → Option Bool
  | 0, _ => none
  | _ + 1, none => some false
  | n + 1, some current => do
      let node ← h.read (some current)
      if node.data = value then some true else lookupLoop h value n node.next

def lookup (h : Heap) (value : ℤ) : Option Bool := h.lookupLoop value h.fuel h.head

def clearLoop : ℕ → Heap → Option Addr → Option Heap
  | 0, _, _ => none
  | _ + 1, h, none => some h
  | n + 1, h, some current => do
      let node ← h.read (some current)
      let h ← h.free current
      clearLoop n h node.next

def clear (h : Heap) : Option Heap := do
  let h ← clearLoop h.fuel h h.head
  some { h with head := none }

def checkLoop (h : Heap) : ℕ → Option Addr → Option Addr → Option Bool
  | 0, _, _ => none
  | _ + 1, _, none => some true
  | n + 1, previous, some current => do
      let before ← h.read previous
      let node ← h.read (some current)
      if before.data ≥ node.data then some false
      else checkLoop h n (some current) node.next

def checkIntegrity (h : Heap) : Option Bool :=
  match h.head with
  | none => some true
  | some a => do
      let node ← h.read (some a)
      if node.next = none then some true else h.checkLoop h.fuel (some a) node.next

end Heap

/-! ## The chain from head -/

variable {h : Heap} {l l₁ l₂ : List Addr} {value : ℤ}

namespace Heap

def get (h : Heap) : Cell Addr → Option Addr
  | .head => h.head
  | .next a => (h.node a).next

def data (h : Heap) (a : Addr) : ℤ := (h.node a).data

def set (h : Heap) (c : Cell Addr) (p : Option Addr) : Heap :=
  match c with
  | .head => { h with head := p }
  | .next a => h.setNext a p

theorem read_of_mem {a : Addr} (ha : a ∈ h.live) : h.read (some a) = some (h.node a) := if_pos ha

theorem storeNext_owner {a : Addr} (p : Option Addr) (ha : a ∈ h.live) :
    h.storeNext (Cell.next a).owner p = some (h.set (.next a) p) := if_pos ha

/-- The address of the next new node. -/
def fresh (h : Heap) (M : Malloc) : Addr := M.addr h.mallocs h.live

/-- The block for the next new node has the bytes of a node. -/
def HasRoom (h : Heap) (M : Malloc) : Prop := sizeofNode ≤ M.bytes h.mallocs sizeofNodePtr

instance (M : Malloc) : Decidable (h.HasRoom M) := inferInstanceAs (Decidable (_ ≤ _))

/-- The heap with the block for a new node and its `data`. -/
def filled (h : Heap) (M : Malloc) (value : ℤ) : Heap :=
  (h.malloc M sizeofNodePtr).1.setData (h.fresh M) value

theorem fresh_notMem (M : Malloc) : h.fresh M ∉ h.live := M.fresh h.mallocs h.live

theorem initNext_eq (M : Malloc) (p : Option Addr) :
    (h.filled M value).initNext (h.malloc M sizeofNodePtr).2 p
      = if h.HasRoom M then some ((h.filled M value).setNext (h.fresh M) p) else none := rfl

@[simp] theorem setData_node_of_ne {a b : Addr} (data : ℤ) (hne : b ≠ a) :
    (h.setData a data).node b = h.node b :=
  Function.update_of_ne hne ..

@[simp] theorem setNext_node_of_ne {a b : Addr} (p : Option Addr) (hne : b ≠ a) :
    (h.setNext a p).node b = h.node b :=
  Function.update_of_ne hne ..

@[simp] theorem filled_data (M : Malloc) : ((h.filled M value).node (h.fresh M)).data = value := by
  simp [filled, setData]

@[simp] theorem filled_node_of_ne {b : Addr} (M : Malloc) (hne : b ≠ h.fresh M) :
    (h.filled M value).node b = h.node b :=
  setData_node_of_ne (h := (h.malloc M sizeofNodePtr).1) value hne

@[simp] theorem set_live (c : Cell Addr) (p : Option Addr) : (h.set c p).live = h.live := by
  cases c <;> rfl

@[simp] theorem set_data (c : Cell Addr) (p : Option Addr) (a : Addr) :
    (h.set c p).data a = h.data a := by
  cases c with
  | head => rfl
  | next b =>
      by_cases hab : a = b
      · subst hab
        simp [set, setNext, data]
      · simp [set, data, hab]

theorem set_get_same (c : Cell Addr) (p : Option Addr) : (h.set c p).get c = p := by
  cases c with
  | head => rfl
  | next a => simp [set, setNext, get]

theorem set_get_of_ne {c d : Cell Addr} (p : Option Addr) (hne : d ≠ c) :
    (h.set c p).get d = h.get d := by
  cases c with
  | head =>
      cases d with
      | head => exact absurd rfl hne
      | next b => rfl
  | next a =>
      cases d with
      | head => rfl
      | next b =>
          have hba : b ≠ a := fun heq => hne (congrArg Cell.next heq)
          simp [set, get, hba]

/-- The chain from `head` is `l`, and none of its nodes was freed. -/
structure Chained (h : Heap) (l : List Addr) : Prop where
  path : Path h.get .head l
  live : ∀ a ∈ l, a ∈ h.live

/-- The values along a chain. -/
def values (h : Heap) (l : List Addr) : List ℤ := l.map h.data

/-- The nodes are in ascending order, no two with the same value. -/
def Ascending (h : Heap) (l : List Addr) : Prop := (h.values l).Pairwise (· < ·)

instance (h : Heap) (l : List Addr) : Decidable (h.Ascending l) :=
  inferInstanceAs (Decidable ((h.values l).Pairwise (· < ·)))

structure Holds (h : Heap) (l : List Addr) : Prop extends Chained h l where
  ascending : h.Ascending l

theorem Chained.length_lt (hc : h.Chained l) : l.length < h.fuel := by
  have hsub : l.toFinset ⊆ h.live := fun a ha => hc.live a (List.mem_toFinset.mp ha)
  have hcard := Finset.card_le_card hsub
  rw [List.toFinset_card_of_nodup hc.path.nodup] at hcard
  exact Nat.lt_succ_of_le hcard

theorem Chained.ne_fresh (hc : h.Chained l) (M : Malloc) : ∀ a ∈ l, a ≠ h.fresh M :=
  fun a ha heq => fresh_notMem M (heq ▸ hc.live a ha)

theorem mem_values {v : ℤ} : v ∈ h.values l ↔ ∃ a ∈ l, h.data a = v := List.mem_map

theorem ascending_cons {a : Addr} :
    h.Ascending (a :: l) ↔ (∀ b ∈ l, h.data a < h.data b) ∧ h.Ascending l := by
  simp [Ascending, values]

theorem ascending_cons_cons {a b : Addr} :
    h.Ascending (a :: b :: l) ↔ h.data a < h.data b ∧ h.Ascending (b :: l) := by
  rw [ascending_cons (a := a)]
  refine ⟨fun ⟨hab, hasc⟩ => ⟨hab b (List.mem_cons_self ..), hasc⟩, fun ⟨hab, hasc⟩ =>
    ⟨fun c hc => ?_, hasc⟩⟩
  rcases List.mem_cons.mp hc with rfl | hc
  · exact hab
  · exact hab.trans ((ascending_cons.mp hasc).1 c hc)

theorem ascending_append : h.Ascending (l₁ ++ l₂) ↔ h.Ascending l₁ ∧ h.Ascending l₂
    ∧ ∀ a ∈ l₁, ∀ b ∈ l₂, h.data a < h.data b := by
  simp [Ascending, values, List.pairwise_append]

/-- Only the data of the nodes matter for their order. -/
theorem Ascending.congr {h' : Heap} (ha : h.Ascending l) (hd : ∀ a ∈ l, h'.data a = h.data a) :
    h'.Ascending l := by
  rwa [Ascending, values, List.map_congr_left hd]

theorem new_holds (node : Addr → Node) : (new node).Holds [] where
  path := rfl
  live := by simp
  ascending := .nil

/-- The rule for the loops: a loop that may take more rounds than the chain
has nodes comes to its end, and reads a node in each round. -/
@[elab_as_elim]
theorem walk {P : ℕ → Cell Addr → List Addr → Prop} (hnil : ∀ n c, h.get c = none → P (n + 1) c [])
    (hcons : ∀ n c a l, Path h.get c (a :: l) → a ∈ h.live → P n (.next a) l →
      P (n + 1) c (a :: l)) :
    ∀ {l : List Addr} {n : ℕ} {c : Cell Addr}, Path h.get c l → (∀ a ∈ l, a ∈ h.live) →
      l.length < n → P n c l := by
  intro l
  induction l with
  | nil =>
      intro n c hp _ hn
      obtain ⟨n, rfl⟩ := Nat.exists_eq_succ_of_ne_zero (Nat.ne_zero_of_lt hn)
      exact hnil n c hp
  | cons a l ih =>
      intro n c hp hlive hn
      obtain ⟨n, rfl⟩ := Nat.exists_eq_succ_of_ne_zero (Nat.ne_zero_of_lt hn)
      exact hcons n c a l hp (hlive a (List.mem_cons_self ..))
        (ih hp.2 (fun b hb => hlive b (List.mem_cons_of_mem _ hb)) (Nat.lt_of_succ_lt_succ hn))

/-! ## insert -/

/-- From the cell `c` on, the loop of `insert` stops at the first node whose
value is not below its own. -/
theorem insertLoop_spec (value : ℤ) : ∀ {l : List Addr} {n : ℕ} {c : Cell Addr}, Path h.get c l →
    (∀ a ∈ l, a ∈ h.live) → l.length < n → ∃ l₁ l₂ d, l = l₁ ++ l₂ ∧ Seg h.get c l₁ d
      ∧ Path h.get d l₂ ∧ (∀ a ∈ l₁, h.data a < value) ∧ (∀ a, l₂.head? = some a → value ≤ h.data a)
      ∧ h.insertLoop value n (h.get c) c.owner
        = some ⟨h.get d, d.owner, l₂.head?.any fun a => h.data a = value⟩ := by
  intro l n c hp hlive hn
  refine walk (fun n c hnone => ?_) (fun n c a l hp halive ih => ?_) hp hlive hn
  · refine ⟨[], [], c, rfl, rfl, hnone, by simp, by simp, ?_⟩
    rw [hnone]
    rfl
  · have hread := read_of_mem halive
    rcases lt_trichotomy (h.data a) value with hlt | heq | hgt
    · obtain ⟨l₁, l₂, d, rfl, hs, hp₂, hbelow, habove, hloop⟩ := ih
      refine ⟨a :: l₁, l₂, d, rfl, ⟨hp.1, hs⟩, hp₂, ?_, habove, ?_⟩
      · exact List.forall_mem_cons.mpr ⟨hlt, hbelow⟩
      · have hngt : ¬ (h.node a).data > value := not_lt.mpr hlt.le
        have hne : (h.node a).data ≠ value := hlt.ne
        simp only [hp.1, insertLoop, hread, Option.bind_eq_bind, Option.bind_some, hngt, hne,
          if_false]
        exact hloop
    · refine ⟨[], a :: l, c, rfl, rfl, hp, by simp, ?_, ?_⟩
      · rintro b ⟨⟩
        exact heq.ge
      · have hngt : ¬ (h.node a).data > value := not_lt.mpr heq.le
        have heq' : (h.node a).data = value := heq
        simp [hp.1, insertLoop, hread, heq', data]
    · refine ⟨[], a :: l, c, rfl, rfl, hp, by simp, ?_, ?_⟩
      · rintro b ⟨⟩
        exact hgt.le
      · have hgt' : (h.node a).data > value := hgt
        simp [hp.1, insertLoop, hread, hgt', data, hgt'.ne']

/-- Where the loop stops tells whether the value is in the list. -/
theorem head_any_eq (ha : h.Ascending (l₁ ++ l₂)) (hbelow : ∀ a ∈ l₁, h.data a < value)
    (habove : ∀ a, l₂.head? = some a → value ≤ h.data a) :
    (l₂.head?.any fun a => h.data a = value) = decide (value ∈ h.values (l₁ ++ l₂)) := by
  have hfirst : value ∉ h.values l₁ := fun hmem => by
    obtain ⟨a, hal, hav⟩ := mem_values.mp hmem
    exact (hbelow a hal).ne hav
  have happ : h.values (l₁ ++ l₂) = h.values l₁ ++ h.values l₂ := List.map_append
  rw [happ]
  cases l₂ with
  | nil =>
      have hnil : h.values [] = [] := rfl
      simp [hnil, hfirst]
  | cons b l₂ =>
      have hb : value ≤ h.data b := habove b rfl
      have hrest : value ∉ h.values l₂ := fun hmem => by
        obtain ⟨a, hal, hav⟩ := mem_values.mp hmem
        have hlt := (ascending_cons.mp (ascending_append.mp ha).2.1).1 a hal
        omega
      have hcons : h.values (b :: l₂) = h.data b :: h.values l₂ := rfl
      simp [hcons, hfirst, hrest, eq_comm]

/-- The heap with a new node for `value` behind the cell `d`. -/
def linked (h : Heap) (M : Malloc) (d : Cell Addr) (value : ℤ) : Heap :=
  ((h.filled M value).setNext (h.fresh M) (h.get d)).set d (some (h.fresh M))

theorem linked_data (M : Malloc) (d : Cell Addr) (a : Addr) : (h.linked M d value).data a
    = if a = h.fresh M then value else h.data a := by
  rw [linked, set_data]
  by_cases ha : a = h.fresh M
  · subst ha
    simp [setNext, data]
  · simp [data, ha]

theorem linked_get_of_ne (M : Malloc) {d e : Cell Addr} (hed : e ≠ d)
    (hea : e ≠ .next (h.fresh M)) : (h.linked M d value).get e = h.get e := by
  rw [linked, set_get_of_ne _ hed]
  cases e with
  | head => rfl
  | next b =>
      have hb : b ≠ h.fresh M := fun heq => hea (congrArg Cell.next heq)
      simp [get, hb]

theorem linked_get_new (M : Malloc) {d : Cell Addr} (hd : d ≠ .next (h.fresh M)) :
    (h.linked M d value).get (.next (h.fresh M)) = h.get d := by
  rw [linked, set_get_of_ne _ (Ne.symm hd)]
  simp [setNext, get]

theorem insert_eq (M : Malloc) (hc : h.Chained l) (value : ℤ) : ∃ l₁ l₂ d, l = l₁ ++ l₂
    ∧ Seg h.get .head l₁ d ∧ Path h.get d l₂ ∧ (∀ a ∈ l₁, h.data a < value)
    ∧ (∀ a, l₂.head? = some a → value ≤ h.data a)
    ∧ h.insert M value = if l₂.head?.any fun a => h.data a = value then some (h, false)
        else if h.HasRoom M then some (h.linked M d value, true) else none := by
  obtain ⟨l₁, l₂, d, rfl, hs, hp, hbelow, habove, hloop⟩ :=
    insertLoop_spec value hc.path hc.live hc.length_lt
  refine ⟨l₁, l₂, d, rfl, hs, hp, hbelow, habove, ?_⟩
  have hloop' : h.insertLoop value h.fuel h.head none = _ := hloop
  rw [insert, hloop', Option.bind_eq_bind, Option.bind_some]
  dsimp only
  by_cases hfound : (l₂.head?.any fun a => h.data a = value)
  · simp [hfound]
  rw [if_neg hfound, if_neg hfound]
  have hinit : ∀ p, ((h.malloc M sizeofNodePtr).1.initData (h.malloc M sizeofNodePtr).2
      value).initNext (h.malloc M sizeofNodePtr).2 p = if h.HasRoom M then
        some ((h.filled M value).setNext (h.fresh M) p) else none := initNext_eq M
  by_cases hd : d = .head
  · subst hd
    rw [if_pos (show h.get .head = h.head from rfl)]
    simp only [hinit]
    by_cases hroom : h.HasRoom M
    · rw [if_pos hroom, if_pos hroom]
      rfl
    · rw [if_neg hroom, if_neg hroom]
      rfl
  have hhead : h.get d ≠ h.head := hs.get_ne_head hc.path.nodup hp hd
  rw [if_neg hhead]
  obtain ⟨a, ha, rfl⟩ := hs.end_eq_next hd
  have halive : a ∈ h.live := hc.live a (List.mem_append_left _ ha)
  have hstore : ∀ p q, ((h.filled M value).setNext (h.fresh M) p).storeNext (Cell.next a).owner q
      = some (((h.filled M value).setNext (h.fresh M) p).set (.next a) q) :=
    fun p q => storeNext_owner q (Finset.mem_insert_of_mem halive)
  have hlinked : ∀ p, p = h.get (.next a) →
      ((if h.HasRoom M then some ((h.filled M value).setNext (h.fresh M) p) else none).bind
        fun h₁ => (h₁.storeNext (Cell.next a).owner (some (h.fresh M))).bind fun h₂ =>
          some (h₂, true))
      = if h.HasRoom M then some (h.linked M (.next a) value, true) else none := by
    rintro p rfl
    by_cases hroom : h.HasRoom M
    · rw [if_pos hroom, if_pos hroom, Option.bind_some, hstore]
      rfl
    · rw [if_neg hroom, if_neg hroom]
      rfl
  by_cases hend : h.get (.next a) = none
  · rw [if_neg (by simp [hend])]
    simp only [hinit]
    exact hlinked none hend.symm
  · rw [if_pos hend]
    have hne := hc.ne_fresh M a (List.mem_append_left _ ha)
    have hread : ((h.malloc M sizeofNodePtr).1.initData (h.malloc M sizeofNodePtr).2
        value).read (Cell.next a).owner = some (h.node a) := by
      exact (read_of_mem (Finset.mem_insert_of_mem halive)).trans
        (congrArg some (filled_node_of_ne M hne))
    simp only [hread, hinit, Option.bind_eq_bind, Option.bind_some]
    exact hlinked _ rfl

theorem linked_holds (M : Malloc) {d : Cell Addr} (hh : h.Holds (l₁ ++ l₂))
    (hs : Seg h.get .head l₁ d) (hp : Path h.get d l₂) (hbelow : ∀ a ∈ l₁, h.data a < value)
    (habove : ∀ a ∈ l₂, value < h.data a) :
    (h.linked M d value).Holds (l₁ ++ h.fresh M :: l₂) := by
  have hne := hh.ne_fresh M
  have hdnew : d ≠ .next (h.fresh M) := by
    rintro rfl
    exact hne (h.fresh M) (List.mem_append_left _ (by simpa using hs.end_mem_cells)) rfl
  have hdata : ∀ a ∈ l₁ ++ l₂, (h.linked M d value).data a = h.data a := fun a ha => by
    rw [linked_data, if_neg (hne a ha)]
  have hnew : (h.linked M d value).data (h.fresh M) = value := by rw [linked_data, if_pos rfl]
  refine ⟨⟨?_, ?_⟩, ?_⟩
  · exact Path.insert hh.path.nodup hs hp (fun hmem => hne _ hmem rfl) (set_get_same d _)
      (linked_get_new M hdnew) fun e hed hea => linked_get_of_ne M hed hea
  · intro a ha
    have hcases : a = h.fresh M ∨ a ∈ l₁ ++ l₂ := by
      simpa [or_left_comm] using ha
    rw [linked, set_live]
    rcases hcases with rfl | ha
    · exact Finset.mem_insert_self ..
    · exact Finset.mem_insert_of_mem (hh.live a ha)
  · obtain ⟨ha₁, ha₂, ha₁₂⟩ := ascending_append.mp hh.ascending
    refine ascending_append.mpr ⟨ha₁.congr fun a ha => hdata a (List.mem_append_left _ ha),
      ascending_cons.mpr ⟨fun b hb => ?_, ha₂.congr fun a ha =>
        hdata a (List.mem_append_right _ ha)⟩, fun a ha b hb => ?_⟩
    · rw [hnew, hdata b (List.mem_append_right _ hb)]
      exact habove b hb
    · rw [hdata a (List.mem_append_left _ ha)]
      rcases List.mem_cons.mp hb with rfl | hb
      · rw [hnew]
        exact hbelow a ha
      · rw [hdata b (List.mem_append_right _ hb)]
        exact ha₁₂ a ha b hb

theorem insert_present (M : Malloc) (hh : h.Holds l) (hmem : value ∈ h.values l) :
    h.insert M value = some (h, false) := by
  obtain ⟨l₁, l₂, d, rfl, -, -, hbelow, habove, hinsert⟩ := insert_eq M hh.toChained value
  rw [hinsert, head_any_eq hh.ascending hbelow habove, if_pos (decide_eq_true hmem)]

/-- A new node in a block without the room for it is an overrun. -/
theorem insert_overrun (M : Malloc) (hh : h.Holds l) (habs : value ∉ h.values l)
    (hroom : ¬h.HasRoom M) : h.insert M value = none := by
  obtain ⟨l₁, l₂, d, rfl, -, -, hbelow, habove, hinsert⟩ := insert_eq M hh.toChained value
  rw [hinsert, head_any_eq hh.ascending hbelow habove, if_neg (by simpa using habs), if_neg hroom]

/-- `insert` adds its value, and tells whether it was absent. -/
theorem insert_spec (M : Malloc) (hh : h.Holds l) (value : ℤ)
    (hroom : value ∉ h.values l → h.HasRoom M) : ∃ h' l',
    h.insert M value = some (h', decide (value ∉ h.values l)) ∧ h'.Holds l'
      ∧ ∀ v, v ∈ h'.values l' ↔ v = value ∨ v ∈ h.values l := by
  by_cases hmem : value ∈ h.values l
  · refine ⟨h, l, by simp [insert_present M hh hmem, hmem], hh, fun v => ?_⟩
    exact ⟨.inr, fun hv => hv.elim (fun heq => heq ▸ hmem) id⟩
  · obtain ⟨l₁, l₂, d, rfl, hs, hp, hbelow, habove, hinsert⟩ :=
      insert_eq M hh.toChained value
    rw [head_any_eq hh.ascending hbelow habove] at hinsert
    have habove' : ∀ a ∈ l₂, value < h.data a := by
      intro a ha
      have hne : h.data a ≠ value := fun heq =>
        hmem (mem_values.mpr ⟨a, List.mem_append_right _ ha, heq⟩)
      refine lt_of_le_of_ne ?_ hne.symm
      cases l₂ with
      | nil => cases ha
      | cons b l₂ =>
          have hb : value ≤ h.data b := habove b rfl
          rcases List.mem_cons.mp ha with rfl | ha
          · exact hb
          · have hasc := ascending_cons.mp (ascending_append.mp hh.ascending).2.1
            exact hb.trans (hasc.1 a ha).le
    have hh' := linked_holds M hh hs hp hbelow habove'
    refine ⟨_, _, by simp [hinsert, hmem, hroom hmem], hh', fun v => ?_⟩
    have hne := hh.ne_fresh M
    simp only [mem_values, linked_data]
    constructor
    · rintro ⟨a, ha, hav⟩
      by_cases hnew : a = h.fresh M
      · rw [if_pos hnew] at hav
        exact .inl hav.symm
      · rw [if_neg hnew] at hav
        refine .inr ⟨a, ?_, hav⟩
        simpa [hnew] using ha
    · rintro (rfl | ⟨a, ha, hav⟩)
      · exact ⟨_, by simp, if_pos rfl⟩
      · refine ⟨a, ?_, by rw [if_neg (hne a ha), hav]⟩
        rcases List.mem_append.mp ha with ha | ha <;> simp [ha]

/-! ## remove -/

/-- What the loop of `remove` does at the node `a` behind the cell `d`. -/
def unlink (h : Heap) (d : Cell Addr) (a : Addr) : Option (Heap × Bool) := do
  let h ← if some a = h.head then some { h with head := none }
    else h.storeNext d.owner (h.get (.next a))
  let h ← h.free a
  some (h, true)

theorem removeLoop_spec (value : ℤ) : ∀ {l : List Addr} {n : ℕ} {c : Cell Addr}, Path h.get c l →
    (∀ a ∈ l, a ∈ h.live) → l.length < n →
    (value ∉ h.values l ∧ h.removeLoop value n (h.get c) c.owner = some (h, false))
      ∨ ∃ l₁ a l₂ d, l = l₁ ++ a :: l₂ ∧ Seg h.get c l₁ d ∧ Path h.get d (a :: l₂)
        ∧ h.data a = value ∧ h.removeLoop value n (h.get c) c.owner = h.unlink d a := by
  intro l n c hp hlive hn
  refine walk (fun n c hnone => ?_) (fun n c a l hp halive ih => ?_) hp hlive hn
  · refine .inl ⟨by simp [values], ?_⟩
    rw [hnone]
    rfl
  · have hread := read_of_mem halive
    by_cases heq : (h.node a).data = value
    · refine .inr ⟨[], a, l, c, rfl, rfl, hp, heq, ?_⟩
      simp only [hp.1, removeLoop, hread, Option.bind_eq_bind, Option.bind_some, heq, if_true]
      rfl
    · have hloop : h.removeLoop value (n + 1) (h.get c) c.owner
          = h.removeLoop value n (h.get (.next a)) (Cell.next a).owner := by
        simp only [hp.1, removeLoop, hread, Option.bind_eq_bind, Option.bind_some, heq, if_false]
        rfl
      rw [hloop]
      rcases ih with ⟨habs, hres⟩ | ⟨l₁, b, l₂, d, rfl, hs, hp₂, hb, hres⟩
      · refine .inl ⟨fun hmem => ?_, hres⟩
        rcases List.mem_cons.mp hmem with hva | hmem
        · exact heq hva.symm
        · exact habs hmem
      · exact .inr ⟨a :: l₁, b, l₂, d, rfl, ⟨hp.1, hs⟩, hp₂, hb, hres⟩

theorem remove_absent (hh : h.Holds l) (habs : value ∉ h.values l) :
    h.remove value = some (h, false) := by
  rcases removeLoop_spec value hh.path hh.live hh.length_lt with
    ⟨-, hres⟩ | ⟨l₁, a, l₂, d, rfl, -, -, ha, -⟩
  · exact hres
  · exact absurd (mem_values.mpr ⟨a, by simp, ha⟩) habs

/-- The node that holds a value of the list. -/
theorem remove_present (hh : h.Holds l) (hmem : value ∈ h.values l) : ∃ l₁ a l₂ d,
    l = l₁ ++ a :: l₂ ∧ Seg h.get .head l₁ d ∧ Path h.get d (a :: l₂) ∧ h.data a = value
      ∧ h.remove value = h.unlink d a := by
  rcases removeLoop_spec value hh.path hh.live hh.length_lt with ⟨habs, -⟩ | hres
  · exact absurd hmem habs
  · exact hres

/-- The first node goes, and with it the list. -/
theorem remove_first (hh : h.Holds l) (hmem : value ∈ h.values l)
    (hleast : ∀ w ∈ h.values l, value ≤ w) :
    ∃ h', h.remove value = some (h', true) ∧ h'.Holds [] := by
  obtain ⟨l₁, a, l₂, d, rfl, hs, hp, ha, hremove⟩ := remove_present hh hmem
  obtain rfl : l₁ = [] := by
    refine List.eq_nil_iff_forall_not_mem.mpr fun b hb => ?_
    have hle := hleast _ (mem_values.mpr ⟨b, List.mem_append_left _ hb, rfl⟩)
    have hlt := (ascending_append.mp hh.ascending).2.2 b hb a (List.mem_cons_self ..)
    omega
  have hhead : some a = h.head := hh.path.1.symm
  have hlive : a ∈ h.live := hh.live a (by simp)
  refine ⟨{ h with head := none, live := h.live.erase a }, ?_, ⟨rfl, by simp⟩, .nil⟩
  simp [hremove, unlink, hhead, free, hlive]

/-- A node behind the first one is unlinked. -/
theorem remove_later (hh : h.Holds l) (hmem : value ∈ h.values l)
    (hleast : ¬∀ w ∈ h.values l, value ≤ w) : ∃ h' l', h.remove value = some (h', true)
      ∧ h'.Holds l' ∧ ∀ v, v ∈ h'.values l' ↔ v ∈ h.values l ∧ v ≠ value := by
  obtain ⟨l₁, a, l₂, d, rfl, hs, hp, ha, hremove⟩ := remove_present hh hmem
  obtain ⟨ha₁, ha₂, ha₁₂⟩ := ascending_append.mp hh.ascending
  obtain ⟨haa, ha₂⟩ := ascending_cons.mp ha₂
  have hd : d ≠ .head := by
    rintro rfl
    refine hleast fun w hw => ?_
    have hl₁ : l₁ = [] := by
      have happ := hh.path.unique hp
      simpa using congrArg List.length happ
    subst hl₁
    obtain ⟨b, hb, rfl⟩ := mem_values.mp hw
    rcases List.mem_cons.mp hb with rfl | hb
    · exact ha.ge
    · exact ha ▸ (haa b hb).le
  have hnd := hh.path.nodup
  have hhead : some a ≠ h.head := by
    rw [← hp.1]
    exact hs.get_ne_head hnd hp hd
  obtain ⟨b, hb, rfl⟩ := hs.end_eq_next hd
  have hlive : a ∈ h.live := hh.live a (by simp)
  let h' : Heap := { h.set (.next b) (h.get (.next a)) with live := h.live.erase a }
  have hres : h.remove value = some (h', true) := by
    rw [hremove, unlink, if_neg hhead, storeNext_owner _ (hh.live b (List.mem_append_left _ hb))]
    simp [free, hlive, h']
  have hdata : ∀ c, h'.data c = h.data c := set_data (h := h) (.next b) (h.get (.next a))
  have hpath : Path h'.get .head (l₁ ++ l₂) :=
    Path.remove hnd hs hp (set_get_same (h := h) (.next b) _)
      fun e hne => set_get_of_ne (h := h) _ hne
  have hnot : a ∉ l₁ ++ l₂ := (List.nodup_middle.mp hnd).notMem
  refine ⟨h', l₁ ++ l₂, hres, ⟨⟨hpath, fun c hc => ?_⟩, ?_⟩, fun v => ?_⟩
  · refine Finset.mem_erase.mpr ⟨fun heq => hnot (heq ▸ hc), hh.live c ?_⟩
    rcases List.mem_append.mp hc with hc | hc <;> simp [hc]
  · refine Ascending.congr (h := h) (ascending_append.mpr ⟨ha₁, ha₂, fun c hc e he => ?_⟩)
      fun c _ => hdata c
    exact ha₁₂ c hc e (List.mem_cons_of_mem _ he)
  · have hval : ∀ c ∈ l₁ ++ l₂, h.data c ≠ value := by
      intro c hc
      rcases List.mem_append.mp hc with hc | hc
      · exact ha ▸ (ha₁₂ c hc a (List.mem_cons_self ..)).ne
      · exact ha ▸ (haa c hc).ne'
    simp only [mem_values, hdata]
    constructor
    · rintro ⟨c, hc, rfl⟩
      refine ⟨⟨c, ?_, rfl⟩, hval c hc⟩
      rcases List.mem_append.mp hc with hc | hc <;> simp [hc]
    · rintro ⟨⟨c, hc, rfl⟩, hne⟩
      refine ⟨c, ?_, rfl⟩
      have hca : c ≠ a := fun heq => hne (heq ▸ ha)
      simpa [hca] using hc

/-! ## lookup, clear and checkIntegrity -/

theorem lookupLoop_spec : ∀ {l : List Addr} {n : ℕ} {c : Cell Addr}, Path h.get c l →
    (∀ a ∈ l, a ∈ h.live) → l.length < n →
    h.lookupLoop value n (h.get c) = some (decide (value ∈ h.values l)) := by
  intro l n c hp hlive hn
  refine walk (fun n c hnone => ?_) (fun n c a l hp halive ih => ?_) hp hlive hn
  · rw [hnone]
    rfl
  · have hread := read_of_mem halive
    have hcons : h.values (a :: l) = (h.node a).data :: h.values l := rfl
    by_cases heq : (h.node a).data = value
    · simp [hp.1, lookupLoop, hread, heq, hcons]
    · simp only [hp.1, lookupLoop, hread, Option.bind_eq_bind, Option.bind_some, heq, if_false]
      refine ih.trans ?_
      simp [hcons, Ne.symm heq]

theorem lookup_spec (hc : h.Chained l) (value : ℤ) :
    h.lookup value = some (decide (value ∈ h.values l)) :=
  lookupLoop_spec hc.path hc.live hc.length_lt

theorem clearLoop_spec : ∀ {l : List Addr} {n : ℕ} {c : Cell Addr} {h : Heap}, Path h.get c l →
    (∀ a ∈ l, a ∈ h.live) → l.length < n →
    clearLoop n h (h.get c) = some { h with live := h.live \ l.toFinset } := by
  intro l
  induction l with
  | nil =>
      intro n c h hp _ hn
      obtain ⟨n, rfl⟩ := Nat.exists_eq_succ_of_ne_zero (Nat.ne_zero_of_lt hn)
      have hnone : h.get c = none := hp
      rw [hnone]
      simp [clearLoop]
  | cons a l ih =>
      intro n c h hp hlive hn
      obtain ⟨n, rfl⟩ := Nat.exists_eq_succ_of_ne_zero (Nat.ne_zero_of_lt hn)
      have halive : a ∈ h.live := hlive a (List.mem_cons_self ..)
      have hlive' : ∀ b ∈ l, b ∈ h.live.erase a := fun b hb => Finset.mem_erase.mpr
        ⟨fun heq => (List.nodup_cons.mp hp.nodup).1 (heq ▸ hb), hlive b (List.mem_cons_of_mem _ hb)⟩
      have hrest := ih (h := { h with live := h.live.erase a }) (c := .next a) (n := n)
        (hp.2.congr rfl fun b _ => rfl) hlive' (Nat.lt_of_succ_lt_succ hn)
      simp only [hp.1, clearLoop, read_of_mem halive, free, halive, if_true, Option.bind_eq_bind,
        Option.bind_some]
      refine hrest.trans ?_
      rw [List.toFinset_cons, Finset.sdiff_insert, Finset.erase_sdiff_comm]

theorem clear_spec (hc : h.Chained l) : ∃ h', h.clear = some h' ∧ h'.Holds [] := by
  refine ⟨{ h with head := none, live := h.live \ l.toFinset }, ?_, ⟨rfl, by simp⟩, .nil⟩
  have hloop : clearLoop h.fuel h h.head = _ := clearLoop_spec hc.path hc.live hc.length_lt
  rw [clear, hloop]
  rfl

/-- The loop of `checkIntegrity` compares each node with the one before. -/
theorem checkLoop_spec : ∀ {l : List Addr} {n : ℕ} {a : Addr}, Path h.get (.next a) l →
    (∀ b ∈ a :: l, b ∈ h.live) → l.length < n →
    h.checkLoop n (some a) (h.get (.next a)) = some (decide (h.Ascending (a :: l))) := by
  intro l
  induction l with
  | nil =>
      intro n a hp _ hn
      obtain ⟨n, rfl⟩ := Nat.exists_eq_succ_of_ne_zero (Nat.ne_zero_of_lt hn)
      have hnone : h.get (.next a) = none := hp
      rw [hnone]
      simp [checkLoop, Ascending, values]
  | cons b l ih =>
      intro n a hp hlive hn
      obtain ⟨n, rfl⟩ := Nat.exists_eq_succ_of_ne_zero (Nat.ne_zero_of_lt hn)
      have hrest := ih hp.2 (fun c hc => hlive c (List.mem_cons_of_mem _ hc))
        (Nat.lt_of_succ_lt_succ hn)
      have hreada : h.read (some a) = some (h.node a) := read_of_mem (hlive a (by simp))
      have hreadb : h.read (some b) = some (h.node b) := read_of_mem (hlive b (by simp))
      by_cases hge : (h.node a).data ≥ (h.node b).data
      · have hnot : ¬h.Ascending (a :: b :: l) := fun hasc =>
          absurd (ascending_cons_cons.mp hasc).1 (not_lt.mpr hge)
        simp [hp.1, checkLoop, hreada, hreadb, hge, hnot]
      · have hab : h.data a < h.data b := not_le.mp hge
        have hiff : h.Ascending (a :: b :: l) ↔ h.Ascending (b :: l) :=
          ascending_cons_cons.trans (and_iff_right hab)
        simp only [hp.1, checkLoop, hreada, hreadb, Option.bind_eq_bind, Option.bind_some, hge,
          if_false, hiff]
        exact hrest

theorem checkIntegrity_spec (hc : h.Chained l) :
    h.checkIntegrity = some (decide (h.Ascending l)) := by
  cases l with
  | nil =>
      have hnone : h.head = none := hc.path
      simp [checkIntegrity, hnone, Ascending, values]
  | cons a l =>
      have hhead : h.head = some a := hc.path.1
      have hread : h.read (some a) = some (h.node a) := read_of_mem (hc.live a (by simp))
      have hlen : l.length < h.fuel := Nat.lt_of_succ_lt hc.length_lt
      have hloop := checkLoop_spec hc.path.2 hc.live hlen
      simp only [checkIntegrity, hhead, hread, Option.bind_eq_bind, Option.bind_some]
      by_cases hend : (h.node a).next = none
      · obtain rfl : l = [] := by
          cases l with
          | nil => rfl
          | cons b l => exact absurd (hc.path.2.1.symm.trans hend) (Option.some_ne_none b)
        simp [hend, Ascending, values]
      · rw [if_neg hend]
        exact hloop

theorem read_eq_some {p : Option Addr} {node : Node} (hr : h.read p = some node) :
    ∃ a ∈ h.live, p = some a ∧ node = h.node a := by
  cases p with
  | none => cases hr
  | some a =>
      rw [read] at hr
      split at hr
      · next ha => exact ⟨a, ha, rfl, (Option.some.inj hr).symm⟩
      · cases hr

/-- The loop only answers `true` at the end of an ascending chain. -/
theorem checkLoop_true : ∀ {n : ℕ} {a : Addr} {c : Cell Addr},
    h.checkLoop n (some a) (h.get c) = some true →
    ∃ l, Path h.get c l ∧ (∀ b ∈ l, b ∈ h.live) ∧ h.Ascending (a :: l) := by
  intro n
  induction n with
  | zero =>
      intro a c htrue
      cases htrue
  | succ n ih =>
      intro a c htrue
      cases hc : h.get c with
      | none => exact ⟨[], hc, by simp, by simp [Ascending, values]⟩
      | some b =>
          rw [hc] at htrue
          simp only [checkLoop, Option.bind_eq_bind, Option.bind_eq_some_iff] at htrue
          obtain ⟨before, hbefore, node, hnode, htrue⟩ := htrue
          obtain ⟨_, -, ⟨⟩, rfl⟩ := read_eq_some hbefore
          obtain ⟨_, hb, ⟨⟩, rfl⟩ := read_eq_some hnode
          split at htrue
          · cases htrue
          · next hge =>
              obtain ⟨l, hp, hlive, hasc⟩ := ih (c := .next b) htrue
              exact ⟨b :: l, ⟨hc, hp⟩, List.forall_mem_cons.mpr ⟨hb, hlive⟩,
                ascending_cons_cons.mpr ⟨not_le.mp hge, hasc⟩⟩

theorem checkIntegrity_iff : h.checkIntegrity = some true ↔ ∃ l, h.Holds l := by
  constructor
  · intro htrue
    cases hhead : h.head with
    | none => exact ⟨[], ⟨hhead, by simp⟩, .nil⟩
    | some a =>
        rw [checkIntegrity, hhead] at htrue
        simp only [Option.bind_eq_bind, Option.bind_eq_some_iff] at htrue
        obtain ⟨node, hnode, htrue⟩ := htrue
        obtain ⟨_, ha, ⟨⟩, rfl⟩ := read_eq_some hnode
        split at htrue
        · next hend => exact ⟨[a], ⟨⟨hhead, hend⟩, by simpa using ha⟩, by simp [Ascending, values]⟩
        · obtain ⟨l, hp, hlive, hasc⟩ := checkLoop_true (c := .next a) htrue
          exact ⟨a :: l, ⟨⟨hhead, hp⟩, List.forall_mem_cons.mpr ⟨ha, hlive⟩⟩, hasc⟩
  · rintro ⟨l, hh⟩
    rw [checkIntegrity_spec hh.toChained, decide_eq_true hh.ascending]

end Heap

end ListBasedSet

end HttpServer
