import Mathlib.Data.List.Basic
import Mathlib.Algebra.GroupWithZero.Nat
import Mathlib.Algebra.BigOperators.Group.List.Basic

/-!
# The streaming buffer

`Buffer` (buffer.hpp, buffer.cpp): a deque of fixed-size chunks, the
number of bytes filled in each, and a write and a read position.

A chunk is its address and the memory that starts there. The memory is
a total function of the offset, so a read at or past the filled part -
or past the chunk itself - is a value the heap happens to hold and not
a default: `heap n` is what the `n`-th `new char[BlockSize]` finds.
Chunks are numbered in the order of their allocation and the number is
the chunk's address.
-/

namespace HttpServer

/-- A heap block of `BlockSize` bytes: where it is and what it holds. -/
structure Chunk where
  addr : ℕ
  mem : ℕ → UInt8

namespace Chunk

/-- The `n` bytes from offset `off` on. -/
def slice (c : Chunk) (off n : ℕ) : List UInt8 :=
  (List.range n).map fun i => c.mem (off + i)

/-- Copy `data` to offset `off`. -/
def store (c : Chunk) (off : ℕ) (data : List UInt8) : Chunk :=
  { c with mem := fun i => if off ≤ i then data.getD (i - off) (c.mem i) else c.mem i }

end Chunk

/-- `Buffer::Position`: chunk number and offset in the chunk. -/
structure Position where
  idx : ℕ
  off : ℕ
deriving DecidableEq, Repr

structure Buffer where
  heap : ℕ → ℕ → UInt8
  allocs : ℕ
  chunks : List Chunk
  sizes : List ℕ
  wpos : Position
  rpos : Position

namespace Buffer

def BlockSize : ℕ := 4096

/-! ## Chunk manipulation -/

/-- `addChunk`: the buffer with a new empty chunk at the end, and the
position of its first byte. -/
def addChunk (b : Buffer) : Buffer × Position :=
  let chunk : Chunk := ⟨b.allocs, b.heap b.allocs⟩
  let chunks := b.chunks ++ [chunk]
  ({ b with allocs := b.allocs + 1, chunks := chunks, sizes := b.sizes ++ [0] },
    ⟨chunks.length - 1, 0⟩)

/-- The statement `wpos_ = addChunk()`. -/
def newChunk (b : Buffer) : Buffer :=
  { b.addChunk.1 with wpos := b.addChunk.2 }

/-- The statement `rpos_ = p`. -/
def setRpos (b : Buffer) (p : Position) : Buffer := { b with rpos := p }

def dropChunks (b : Buffer) (n : ℕ) : Buffer :=
  if n = 0 then b
  else
    { b with
      wpos := { b.wpos with idx := b.wpos.idx - n }
      rpos := { b.rpos with idx := b.rpos.idx - n }
      chunks := b.chunks.drop n
      sizes := b.sizes.drop n }

/-- A new buffer over the given heap. -/
def new (heap : ℕ → ℕ → UInt8) : Buffer :=
  let b := addChunk ⟨heap, 0, [], [], ⟨0, 0⟩, ⟨0, 0⟩⟩
  { b.1 with wpos := b.2, rpos := b.2 }

/-! ## Accessors -/

def sizeAt (b : Buffer) (i : ℕ) : ℕ := b.sizes.getD i 0

/-- The memory `chunks_[i]` points to. -/
def memAt (b : Buffer) (i : ℕ) : ℕ → UInt8 :=
  match b.chunks[i]? with
  | some c => c.mem
  | none => fun _ => 0

def writeSize (b : Buffer) : ℕ := BlockSize - b.wpos.off

def readSize (b : Buffer) : ℕ := b.sizeAt b.rpos.idx - b.rpos.off

def numChunks (b : Buffer) : ℕ := b.chunks.length

def byteCount (b : Buffer) : ℕ := b.readSize + (b.sizes.drop 1).sum

def isConsumed (b : Buffer) : Bool := b.rpos.idx != 0 || b.rpos.off != 0

/-! ## Writing -/

def reserve (b : Buffer) (bytes : ℕ) : Buffer × Bool :=
  if bytes > BlockSize then (b, false)
  else if BlockSize - b.wpos.off ≥ bytes then (b, true)
  else
    -- a chunk that was fully consumed is dropped with the new one in place
    let shouldAdvance := b.rpos = b.wpos
    let b := b.newChunk
    (if shouldAdvance then (b.setRpos b.wpos).dropChunks 1 else b, true)

/-- What a producer does with the area at `writePtr()`: it stores
`data` there. The area has `writeSize()` bytes, so `data` is at most
that long. -/
def store (b : Buffer) (data : List UInt8) : Buffer :=
  { b with chunks := b.chunks.modify b.wpos.idx fun c => c.store b.wpos.off data }

/-- The last two statements of every writing loop: `n` more bytes are
filled in the current chunk. -/
def grow (b : Buffer) (n : ℕ) : Buffer :=
  { b with
    wpos := { b.wpos with off := b.wpos.off + n }
    sizes := b.sizes.modify b.wpos.idx (· + n) }

def advance (b : Buffer) (bytes : ℕ) : Buffer × Bool :=
  if bytes ≤ 0 then (b, false)
  else if bytes ≤ b.writeSize then (b.grow bytes, true)
  else (b, false)

/-- The body of the loop of `write`: as much of `data` as the current
chunk takes, and what is left of it. -/
def writeRound (b : Buffer) (data : List UInt8) : Buffer × List UInt8 :=
  let n := min b.writeSize data.length
  let b := (b.store (data.take n)).grow n
  let data := data.drop n
  (if data.length > 0 ∨ b.wpos.off = BlockSize then b.newChunk else b, data)

/-- One round of the loop per unit of fuel. -/
def writeLoop : ℕ → Buffer → List UInt8 → Buffer
  | 0, b, _ => b
  | fuel + 1, b, data =>
      if data.length > 0 then
        let (b, data) := b.writeRound data
        writeLoop fuel b data
      else b

/-- `write`: a round writes nothing only on a full chunk, which can be
the case in the first one alone, so `data.length + 1` rounds suffice. -/
def write (b : Buffer) (data : List UInt8) : Buffer :=
  writeLoop (data.length + 1) b data

/-- The loop of `copyFrom`; `first` is the test `i == 0`. -/
def copyLoop : List (Chunk × ℕ) → Bool → Buffer → Buffer
  | [], _, b => b
  | (c, len) :: rest, first, b =>
      let b := if !first || len > b.writeSize then b.newChunk else b
      copyLoop rest false ((b.store (c.slice 0 len)).grow len)

/-- `copyFrom`. On a consumed source the code logs a fatal message and
returns. -/
def copyFrom (b other : Buffer) : Buffer :=
  if other.isConsumed then b
  else if other.readSize = 0 then b
  else
    let b := copyLoop (other.chunks.zip other.sizes) true b
    if b.wpos.off = BlockSize then b.newChunk else b

/-! ## Reading -/

/-- The loop of `consume` over the chunks before the last: the buffer,
the bytes still to consume and the number of chunks to drop. Every round
but the last one leaves a chunk, so `wpos_.idx - rpos_.idx + 1` rounds
suffice. -/
def consumeLoop : ℕ → Buffer → ℕ → ℕ → Buffer × ℕ × ℕ
  | 0, b, bytes, toDrop => (b, bytes, toDrop)
  | fuel + 1, b, bytes, toDrop =>
      if bytes > 0 ∧ b.rpos.idx < b.wpos.idx then
        let n := min bytes b.readSize
        let b := b.setRpos ⟨b.rpos.idx, b.rpos.off + n⟩
        if b.readSize = 0 then
          consumeLoop fuel (b.setRpos ⟨b.rpos.idx + 1, 0⟩) (bytes - n) (toDrop + 1)
        else consumeLoop fuel b (bytes - n) toDrop
      else (b, bytes, toDrop)

def consume (b : Buffer) (bytes : ℕ) : Buffer :=
  let (b, bytes, toDrop) := consumeLoop (b.wpos.idx - b.rpos.idx + 1) b bytes 0
  let b :=
    if bytes > 0 then b.setRpos ⟨b.rpos.idx, b.rpos.off + min bytes b.readSize⟩
    else b
  b.dropChunks toDrop

/-- The written bytes of the chunks from the read position on. -/
def content (b : Buffer) : List UInt8 :=
  match (b.chunks.zip b.sizes).drop b.rpos.idx with
  | [] => []
  | (c, n) :: rest =>
      c.slice b.rpos.off (n - b.rpos.off) ++ (rest.map fun p => p.1.slice 0 p.2).flatten

end Buffer

end HttpServer
