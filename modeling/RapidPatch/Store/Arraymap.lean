import Mathlib.Algebra.Group.Nat.Defs
import Mathlib.Data.Int.Notation
import RapidPatch.Support.SortedPrefix

/-!
`arraymap`, the sorted table behind the fixed patch points.

The table owns two heap blocks of words. A block is the function its words
make up together with the number of words the allocator gave it: a read
behind the block yields whatever memory holds there, a write behind it is
the end of the run. `Heap` is what one operation finds in memory that is
not the table's: behind the blocks, and in the blocks `malloc` hands out.

Lookup and insertion search differently. `binary_search` is a plain search
of the keys in use. `lower_bound` keeps an index below its target on the
left, starting with index 0 without looking at it, and `arraymap_set` then
compares with the slot it returns even when that slot is behind the keys
in use. So a key not above the first one is put at index 1, and a key above
all others is taken for an update when the stale slot happens to equal it.
The 16-bit sizes are a third trap: `max_size` wraps when the table grows
past `0xffff`, and the next growth copies too little. `SetInOrder` excludes
the three on the state before an insertion; from there on the table is a
finite map.
-/

namespace RapidPatch.Store

open RapidPatch.Support

instance irreflBitVecLt {w : ℕ} : Std.Irrefl (α := BitVec w) (· < ·) :=
  ⟨fun x => BitVec.lt_irrefl x⟩

/-! ### Heap blocks -/

structure Block where
  cells : ℕ → BitVec 32
  words : ℕ

/-- Memory as one operation finds it outside the table's blocks. -/
structure Heap where
  keysBehind : ℕ → BitVec 32
  valsBehind : ℕ → BitVec 32
  keysFresh : ℕ → BitVec 32
  valsFresh : ℕ → BitVec 32

def Block.read (b : Block) (behind : ℕ → BitVec 32) (i : ℕ) : BitVec 32 :=
  if i < b.words then b.cells i else behind i

def Block.write (b : Block) (i : ℕ) (v : BitVec 32) : Option Block :=
  if i < b.words then some { b with cells := Function.update b.cells i v } else none

/-- `ebpf_malloc(size)` of a number of bytes, reduced to the width of `size_t`. -/
def ebpfMalloc (fresh : ℕ → BitVec 32) (size : ℕ) : Block :=
  { cells := fresh, words := size % 2 ^ 32 / 4 }

/-- `ebpf_realloc(rmem, orisize, newsize)`: the first `orisize` bytes are
copied, also those behind the old block. -/
def ebpfRealloc (b : Block) (behind fresh : ℕ → BitVec 32) (oriSize newSize : ℕ) : Block :=
  if newSize = 0 then { cells := fresh, words := 0 }
  else if newSize ≤ oriSize then b
  else
    { cells := fun i => if i < oriSize / 4 then b.read behind i else fresh i
      words := newSize % 2 ^ 32 / 4 }

/-! ### The two searches -/

def binarySearchLoop (arr : ℕ → BitVec 32) (val : BitVec 32) (start stop : ℤ) : ℤ :=
  if start ≤ stop then
    let mid := (start + stop) / 2
    let m := arr mid.toNat
    if m = val then mid
    else if val < m then binarySearchLoop arr val start (mid - 1)
    else binarySearchLoop arr val (mid + 1) stop
  else -1
termination_by (stop + 1 - start).toNat

def binarySearch (arr : ℕ → BitVec 32) (size : ℕ) (val : BitVec 32) : ℤ :=
  binarySearchLoop arr val 0 (size - 1)

def lowerBoundLoop (arr : ℕ → BitVec 32) (val : BitVec 32) (start stop : ℕ) : ℕ :=
  if start + 1 < stop then
    let mid := (start + stop) / 2
    if arr mid < val then lowerBoundLoop arr val mid stop
    else lowerBoundLoop arr val start mid
  else stop
termination_by stop - start

def lowerBound (arr : ℕ → BitVec 32) (size : ℕ) (val : BitVec 32) : ℕ :=
  lowerBoundLoop arr val 0 size

/-! ### The table -/

structure Arraymap where
  maxSize : BitVec 16
  curSize : BitVec 16
  keys : Block
  vals : Block

def mapGrow : ℕ := 4

/-- `sizeof(darray)`: two `int`s and an empty array. -/
def sizeofDarray : ℕ := 8

def arraymapNew (h : Heap) (initialSize : ℕ) : Arraymap where
  maxSize := BitVec.ofNat 16 initialSize
  curSize := 0
  keys := ebpfMalloc h.keysFresh (initialSize * 4)
  vals := ebpfMalloc h.valsFresh (initialSize * 4)

namespace Arraymap

/-- The key `keys[i]`, as read. -/
def key (m : Arraymap) (h : Heap) (i : ℕ) : BitVec 32 := m.keys.read h.keysBehind i

/-- The value `vals[i]`, as read. -/
def val (m : Arraymap) (h : Heap) (i : ℕ) : BitVec 32 := m.vals.read h.valsBehind i

/-- `keys[i] = key; vals[i] = val`. -/
def put (m : Arraymap) (i : ℕ) (key val : BitVec 32) : Option Arraymap := do
  let keys ← m.keys.write i key
  let vals ← m.vals.write i val
  return { m with keys := keys, vals := vals }

/-- The growth of `arraymap_set`. -/
def grow (m : Arraymap) (h : Heap) : Arraymap :=
  let newSize := m.maxSize.toNat + mapGrow
  let oriSize := sizeofDarray + m.maxSize.toNat * 4
  { m with
    keys := ebpfRealloc m.keys h.keysBehind h.keysFresh oriSize (newSize * 4)
    vals := ebpfRealloc m.vals h.valsBehind h.valsFresh oriSize (newSize * 4)
    maxSize := BitVec.ofNat 16 newSize }

/-- `for (int i = cur_size; i > insert; i--)` slot `i - 1` moves to slot `i`. -/
def shiftUp (h : Heap) (insert : ℕ) : ℕ → Arraymap → Option Arraymap
  | 0, m => some m
  | i + 1, m =>
      if insert < i + 1 then do
        let m ← m.put (i + 1) (m.key h i) (m.val h i)
        shiftUp h insert i m
      else some m

/-- `for (int i = idx; i < cur_size; i++)` slot `i + 1` moves to slot `i`;
`n` turns are left. -/
def shiftDown (h : Heap) : ℕ → ℕ → Arraymap → Option Arraymap
  | 0, _, m => some m
  | n + 1, i, m => do
      let m ← m.put i (m.key h (i + 1)) (m.val h (i + 1))
      shiftDown h n (i + 1) m

end Arraymap

/-- `arraymap_set`, with its `int` result. The update returns no value, so
its result is indeterminate. -/
def arraymapSet (h : Heap) (m : Arraymap) (key val : BitVec 32) :
    Option (Arraymap × Option ℕ) :=
  if m.curSize = 0 then do
    let m ← m.put 0 key val
    return ({ m with curSize := m.curSize + 1 }, some 0)
  else
    let insert := lowerBound (m.key h) m.curSize.toNat key
    if m.key h insert = key then do
      let vals ← m.vals.write insert val
      return ({ m with vals := vals }, none)
    else do
      let m := if m.maxSize ≤ m.curSize then m.grow h else m
      let m ← m.shiftUp h insert m.curSize.toNat
      let m ← m.put insert key val
      return ({ m with curSize := m.curSize + 1 }, some insert)

def arraymapGet (h : Heap) (m : Arraymap) (key : BitVec 32) : BitVec 32 :=
  let idx := binarySearch (m.key h) m.curSize.toNat key
  if idx ≠ -1 then m.val h idx.toNat else 0

def arraymapDel (h : Heap) (m : Arraymap) (key : BitVec 32) : Option Arraymap :=
  let idx := binarySearch (m.key h) m.curSize.toNat key
  if idx ≠ -1 then do
    let m ← m.shiftDown h (m.curSize.toNat - idx.toNat) idx.toNat
    let m := { m with curSize := m.curSize - 1 }
    m.put m.curSize.toNat 0 0
  else some m

end RapidPatch.Store
