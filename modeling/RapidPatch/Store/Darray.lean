import RapidPatch.Store.Arraymap
import RapidPatch.Support.Blocks
import RapidPatch.Support.Events

/-!
`darray`, the array that gives out its indices.

A `darray` is one heap block: two `int`s and the values behind them. Two things
go wrong with it. `darray_add` moves the block when it grows, and keeps the new
address to itself, so that its caller's handle is left with a block that is
free. And `darray_set` takes a key up to `max_size`, where `darray_get` finds a
value only up to `cur_size`. `Fits` says when a call does neither, and a run
keeps its handle and its values if each of its calls fits the state it is made
in; where no key is negative, only then (`darray_keeps_values`).
-/

namespace RapidPatch.Store

open RapidPatch.Support

/-! ### The heap

Every access is checked: one outside of a live block is the end of the run. -/

def wordAt (h : Blocks Block) (p : Option ℕ) (i : ℤ) : Option (BitVec 32) := do
  let b ← h.read p
  if 0 ≤ i ∧ i < b.words then some (b.cells i.toNat) else none

def setWord (h : Blocks Block) (p : Option ℕ) (i : ℤ) (v : BitVec 32) : Option (Blocks Block) := do
  let b ← h.read p
  if 0 ≤ i ∧ i < b.words then h.write p { b with cells := Function.update b.cells i.toNat v }
  else none

/-- `memset` with zero, of a number of words. -/
def clearWords (h : Blocks Block) (p : Option ℕ) (i n : ℕ) : Option (Blocks Block) := do
  let b ← h.read p
  if i + n ≤ b.words then
    h.write p { b with cells := fun j => if i ≤ j ∧ j < i + n then 0 else b.cells j }
  else none

/-- `ebpf_realloc`, on the heap. -/
def heapRealloc (fresh : ℕ → BitVec 32) (h : Blocks Block) (rmem : Option ℕ)
    (oriSize newSize : BitVec 32) : Option (Blocks Block × Option ℕ) :=
  if newSize = 0 then do
    let h ← h.free rmem
    return (h, none)
  else if rmem = none then
    let (h, pnew) := h.alloc (ebpfMalloc fresh newSize.toNat)
    some (h, some pnew)
  else if newSize ≤ oriSize then some (h, rmem)
  else do
    let b ← h.read rmem
    if oriSize.toNat ≤ b.words * 4 then do
      let pnew := ebpfMalloc fresh newSize.toNat
      let pnew := { pnew with cells := fun i =>
        if i < oriSize.toNat / 4 then b.cells i else pnew.cells i }
      let (h, pnew) := h.alloc pnew
      let h ← h.free rmem
      return (h, some pnew)
    else none

/-! ### The array

`cur_size` is word 0 of its block, `max_size` word 1, and `vals[0]` word 2. -/

def darrayNew (fresh : ℕ → BitVec 32) (h : Blocks Block) (initialSize : BitVec 32) :
    Option (Blocks Block × Option ℕ) := do
  let dataSize := initialSize * 4
  let (h, map) := h.alloc (ebpfMalloc fresh (BitVec.ofNat 32 sizeofDarray + dataSize).toNat)
  let h ← setWord h (some map) 1 initialSize
  let h ← setWord h (some map) 0 0
  let h ← clearWords h (some map) 2 (dataSize.toNat / 4)
  return (h, some map)

/-- The loop of `darray_add`, with the turns that are left. -/
def findNull (h : Blocks Block) (arr : Option ℕ) : ℕ → ℕ → Option (Option ℕ)
  | 0, _ => some none
  | n + 1, i => do
      let v ← wordAt h arr (i + 2)
      if v = 0 then some (some i) else findNull h arr n (i + 1)

/-- `darray_add`. What it does to `arr` its caller does not see. -/
def darrayAdd (fresh : ℕ → BitVec 32) (h : Blocks Block) (arr : Option ℕ) (val : BitVec 32) :
    Option (Blocks Block × ℤ) := do
  let cur ← wordAt h arr 0
  match ← findNull h arr cur.toInt.toNat 0 with
  | some i =>
      let h ← setWord h arr (i + 2) val
      return (h, i)
  | none =>
      let idx := cur
      let h ← setWord h arr 0 (cur + 1)
      let max ← wordAt h arr 1
      let (h, arr) ← if (cur + 1).toInt ≥ max.toInt then do
          let newSize := max + BitVec.ofNat 32 mapGrow
          let oriSize := BitVec.ofNat 32 sizeofDarray + max * 4
          let (h, arr) ←
            heapRealloc fresh h arr oriSize (BitVec.ofNat 32 sizeofDarray + newSize * 4)
          let h ← setWord h arr 1 newSize
          some (h, arr)
        else some (h, arr)
      let h ← setWord h arr (idx.toInt + 2) val
      return (h, idx.toInt)

def darrayGet (h : Blocks Block) (arr : Option ℕ) (key : ℤ) : Option (BitVec 32) := do
  let cur ← wordAt h arr 0
  if key < cur.toInt then wordAt h arr (key + 2) else some 0

def darraySet (h : Blocks Block) (arr : Option ℕ) (key : ℤ) (val : BitVec 32) :
    Option (Blocks Block) := do
  let max ← wordAt h arr 1
  if key < max.toInt then setWord h arr (key + 2) val else some h

def darrayDel (h : Blocks Block) (arr : Option ℕ) (key : ℤ) : Option (Blocks Block) := do
  let cur ← wordAt h arr 0
  if key < cur.toInt then setWord h arr (key + 2) 0 else some h

/-! ### Calls -/

/-- The calls. `fresh` is what an allocation finds in its block. -/
inductive DarrayOp
  | add (fresh : ℕ → BitVec 32) (val : BitVec 32)
  | get (key : ℤ)
  | set (key : ℤ) (val : BitVec 32)
  | del (key : ℤ)

/-- The heap, the handle of the caller, and the values that are to be found. -/
structure DarrayRun where
  heap : Blocks Block
  handle : Option ℕ
  expected : ℤ → Option (BitVec 32)

/-- What is expected after a value has been added. A key that is given out while
another value is expected there is still expected to have that value. -/
def expectAdded (expected : ℤ → Option (BitVec 32)) (key : ℤ) (val : BitVec 32) :
    ℤ → Option (BitVec 32) :=
  Function.update expected key
    (some ((expected key).elim val fun old => if old = 0 then val else old))

/-- The state after a call, if it accesses nothing else than the live block. -/
def darrayStep (s : DarrayRun) : DarrayOp → Option DarrayRun
  | .add fresh val => do
      let (h, key) ← darrayAdd fresh s.heap s.handle val
      return { s with heap := h, expected := expectAdded s.expected key val }
  | .get key => do
      let _ ← darrayGet s.heap s.handle key
      return s
  | .set key val => do
      let h ← darraySet s.heap s.handle key val
      return { s with heap := h, expected := Function.update s.expected key (some val) }
  | .del key => do
      let h ← darrayDel s.heap s.handle key
      return { s with heap := h, expected := Function.update s.expected key none }

/-- The calls of a run: the values that are added are not null, and the keys
that are set are below `max_size`. -/
def DarrayRun.Asked (s : DarrayRun) : DarrayOp → Bool
  | .add _ val => val ≠ 0
  | .set key _ => (wordAt s.heap s.handle 1).all fun max => key < max.toInt
  | _ => true

def darrayCall (o : Option DarrayRun) (op : DarrayOp) : Option (Option DarrayRun) :=
  o.bind fun s => if s.Asked op then some (darrayStep s op) else none

def darrayRun (fresh : ℕ → BitVec 32) (h : Blocks Block) (initialSize : BitVec 32) :
    Option DarrayRun :=
  (darrayNew fresh h initialSize).map fun (h, map) => ⟨h, map, fun _ => none⟩

/-- The handle is the one of a live block, and every value is found. -/
def KeepsValues (o : Option DarrayRun) : Prop :=
  ∃ s, o = some s ∧ (s.heap.read s.handle).isSome ∧
    ∀ key val, s.expected key = some val → darrayGet s.heap s.handle key = some val

/-- The call neither moves the array nor puts a value where it is not found:
there is a null among the values, or room behind them; and only a null is put
behind the values in use. A negative key is none of the array. -/
def DarrayFits (o : Option DarrayRun) (op : DarrayOp) : Prop :=
  ∃ s b, o = some s ∧ s.heap.read s.handle = some b ∧
    match op with
    | .add _ _ => (∃ i < (b.cells 0).toNat, b.cells (i + 2) = 0) ∨
        (b.cells 0).toNat + 1 < (b.cells 1).toNat
    | .get key => -2 ≤ key
    | .set key val => 0 ≤ key ∧ (key < (b.cells 0).toNat ∨ val = 0)
    | .del key => 0 ≤ key

/-- No key that is written to is negative. -/
def DarrayOp.NonNeg : DarrayOp → Prop
  | .set key _ => 0 ≤ key
  | .del key => 0 ≤ key
  | _ => True

/-! ### One word -/

section

variable {h h' : Blocks Block} {p : Option ℕ} {b : Block} {i j n : ℕ} {v : BitVec 32}

theorem wordAt_of_lt (hb : h.read p = some b) (hi : i < b.words) :
    wordAt h p i = some (b.cells i) := by
  have hin : (0 : ℤ) ≤ i ∧ (i : ℤ) < b.words := ⟨by omega, by omega⟩
  simp only [wordAt, hb, Option.bind_eq_bind, Option.bind_some, if_pos hin, Int.toNat_natCast]

theorem setWord_of_lt (hb : h.read p = some b) (hi : i < b.words) (v : BitVec 32) :
    ∃ h', setWord h p i v = some h' ∧
      h'.read p = some { b with cells := Function.update b.cells i v } := by
  cases p with
  | none => cases hb
  | some q =>
      have hin : (0 : ℤ) ≤ i ∧ (i : ℤ) < b.words := ⟨by omega, by omega⟩
      have hlive : h.cell q = some b := hb
      refine ⟨_, ?_, Blocks.put_cell_self hlive⟩
      simp only [setWord, hb, Option.bind_eq_bind, Option.bind_some, if_pos hin,
        Int.toNat_natCast, Blocks.write_of_live hlive]

theorem setWord_freed {q : ℕ} {k : ℤ} (hset : setWord h p k v = some h')
    (hq : h.read (some q) = none) : h'.read (some q) = none := by
  simp only [setWord, Option.bind_eq_bind, Option.bind_eq_some_iff] at hset
  obtain ⟨b, -, hset⟩ := hset
  split at hset
  · exact Blocks.write_freed hset hq
  · cases hset

theorem clearWords_of_le (hb : h.read p = some b) (hn : i + n ≤ b.words) :
    ∃ h', clearWords h p i n = some h' ∧
      h'.read p = some { b with cells := fun j => if i ≤ j ∧ j < i + n then 0 else b.cells j } := by
  cases p with
  | none => cases hb
  | some q =>
      have hlive : h.cell q = some b := hb
      refine ⟨_, ?_, Blocks.put_cell_self hlive⟩
      simp only [clearWords, hb, Option.bind_eq_bind, Option.bind_some, if_pos hn,
        Blocks.write_of_live hlive]

/-- A block that grows is another block, and the old one is free. -/
theorem heapRealloc_moves {q : ℕ} {fresh : ℕ → BitVec 32} {oriSize newSize : BitVec 32}
    {pnew : Option ℕ} (hb : h.read (some q) = some b) (hgrow : oriSize < newSize)
    (hre : heapRealloc fresh h (some q) oriSize newSize = some (h', pnew)) :
    h'.read (some q) = none := by
  have hlive : h.cell q = some b := hb
  have hne : newSize ≠ 0 := by bv_omega
  have hle : ¬newSize ≤ oriSize := by bv_omega
  simp only [heapRealloc, if_neg hne, reduceCtorEq, if_false, if_neg hle, hb, Option.bind_eq_bind,
    Option.bind_some] at hre
  split at hre
  · rw [Blocks.free_of_live (Blocks.alloc_cell hlive), Option.bind_some] at hre
    cases hre
    exact Blocks.put_cell_self (Blocks.alloc_cell hlive)
  · cases hre

/-! ### One array -/

/-- A pointer to a `darray` of `n` slots. -/
structure HasDarray (h : Blocks Block) (p : Option ℕ) (n : ℕ) (b : Block) : Prop where
  read : h.read p = some b
  words : b.words = n + 2
  max : b.cells 1 = BitVec.ofNat 32 n
  cur : (b.cells 0).toNat < n
  small : n + 2 < 2 ^ 30

variable {key : ℤ}

theorem toInt_of_small {x : BitVec 32} (hx : x.toNat < 2 ^ 30) : x.toInt = x.toNat :=
  BitVec.toInt_eq_toNat_of_lt (by omega)

theorem HasDarray.cur_toInt (hd : HasDarray h p n b) :
    (b.cells 0).toInt = (b.cells 0).toNat :=
  toInt_of_small (by have := hd.cur; have := hd.small; omega)

theorem HasDarray.max_toNat (hd : HasDarray h p n b) : (b.cells 1).toNat = n := by
  have := hd.small
  rw [hd.max, BitVec.toNat_ofNat]
  omega

theorem HasDarray.max_toInt (hd : HasDarray h p n b) : (b.cells 1).toInt = n := by
  have := hd.small
  rw [toInt_of_small (by rw [hd.max_toNat]; omega), hd.max_toNat]

theorem HasDarray.cur_word (hd : HasDarray h p n b) : wordAt h p 0 = some (b.cells 0) := by
  exact_mod_cast wordAt_of_lt (i := 0) hd.read (by rw [hd.words]; omega)

theorem HasDarray.max_word (hd : HasDarray h p n b) : wordAt h p 1 = some (b.cells 1) := by
  exact_mod_cast wordAt_of_lt (i := 1) hd.read (by rw [hd.words]; omega)

theorem HasDarray.get (hd : HasDarray h p n b) (hkey : -2 ≤ key) :
    darrayGet h p key = some (if key < (b.cells 0).toNat then b.cells (key + 2).toNat else 0) := by
  have hcur := hd.cur
  have hwords := hd.words
  simp only [darrayGet, hd.cur_word, Option.bind_eq_bind, Option.bind_some, hd.cur_toInt]
  split
  · obtain ⟨i, hi⟩ := Int.eq_ofNat_of_zero_le (show 0 ≤ key + 2 by omega)
    rw [hi, wordAt_of_lt hd.read (by omega), Int.toNat_natCast]
  · rfl

theorem HasDarray.put (hd : HasDarray h p n b) (hi : i < n) (v : BitVec 32) :
    ∃ h', setWord h p (i + 2) v = some h' ∧
      HasDarray h' p n { b with cells := Function.update b.cells (i + 2) v } := by
  have hwords := hd.words
  obtain ⟨h', hset, hread⟩ := setWord_of_lt (i := i + 2) hd.read (by omega) v
  refine ⟨h', by exact_mod_cast hset, hread, hd.words, ?_, ?_, hd.small⟩
  · have hmax : Function.update b.cells (i + 2) v 1 = b.cells 1 :=
      Function.update_of_ne (by omega) ..
    exact hmax.trans hd.max
  · have hcur : Function.update b.cells (i + 2) v 0 = b.cells 0 :=
      Function.update_of_ne (by omega) ..
    exact hcur ▸ hd.cur

theorem findNull_spec (hb : h.read p = some b) (hn : i + n + 2 ≤ b.words) :
    (∃ j, findNull h p n i = some (some j) ∧ i ≤ j ∧ j < i + n ∧ b.cells (j + 2) = 0) ∨
      findNull h p n i = some none ∧ ∀ j, i ≤ j → j < i + n → b.cells (j + 2) ≠ 0 := by
  induction n generalizing i with
  | zero => exact .inr ⟨rfl, fun j hj hlt => absurd hlt (by omega)⟩
  | succ n ih =>
      have hword : wordAt h p (i + 2) = some (b.cells (i + 2)) := by
        exact_mod_cast wordAt_of_lt (i := i + 2) hb (by omega)
      have hstep : findNull h p (n + 1) i =
          if b.cells (i + 2) = 0 then some (some i) else findNull h p n (i + 1) := by
        simp only [findNull, hword, Option.bind_eq_bind, Option.bind_some]
      by_cases hzero : b.cells (i + 2) = 0
      · exact .inl ⟨i, by rw [hstep, if_pos hzero], by omega, by omega, hzero⟩
      · rw [hstep, if_neg hzero]
        rcases ih (i := i + 1) (by omega) with ⟨j, hj, hle, hlt, hnull⟩ | ⟨hnone, hall⟩
        · exact .inl ⟨j, hj, by omega, by omega, hnull⟩
        · refine .inr ⟨hnone, fun j hj hlt => ?_⟩
          rcases Nat.eq_or_lt_of_le hj with rfl | hlt'
          · exact hzero
          · exact hall j hlt' (by omega)

theorem HasDarray.add_null (hd : HasDarray h p n b) (fresh : ℕ → BitVec 32) (v : BitVec 32)
    (hnull : ∃ i < (b.cells 0).toNat, b.cells (i + 2) = 0) :
    ∃ h' i, i < (b.cells 0).toNat ∧ b.cells (i + 2) = 0 ∧
      darrayAdd fresh h p v = some (h', (i : ℤ)) ∧
      HasDarray h' p n { b with cells := Function.update b.cells (i + 2) v } := by
  have hcur := hd.cur
  have hwords := hd.words
  have hfind := findNull_spec (i := 0) (n := (b.cells 0).toNat) hd.read (by omega)
  rcases hfind with ⟨j, hj, -, hlt, hzero⟩ | ⟨-, hall⟩
  · obtain ⟨h', hset, hd'⟩ := hd.put (i := j) (by omega) v
    refine ⟨h', j, by omega, hzero, ?_, hd'⟩
    simp only [darrayAdd, hd.cur_word, hd.cur_toInt, Int.toNat_natCast, hj, hset,
      Option.bind_eq_bind, Option.bind_some]
    rfl
  · obtain ⟨i, hi, hzero⟩ := hnull
    exact absurd hzero (hall i (Nat.zero_le i) (by omega))

theorem HasDarray.cur_succ (hd : HasDarray h p n b) :
    (b.cells 0 + 1).toNat = (b.cells 0).toNat + 1 := by
  have hcur := hd.cur
  have hsmall := hd.small
  rw [BitVec.toNat_add]
  simp only [BitVec.reduceToNat]
  omega

theorem HasDarray.cur_succ_toInt (hd : HasDarray h p n b) :
    (b.cells 0 + 1).toInt = (b.cells 0).toNat + 1 := by
  have hcur := hd.cur
  have hsmall := hd.small
  rw [toInt_of_small (by rw [hd.cur_succ]; omega), hd.cur_succ]
  rfl

theorem HasDarray.findNull_none (hd : HasDarray h p n b)
    (hnull : ∀ i < (b.cells 0).toNat, b.cells (i + 2) ≠ 0) :
    findNull h p (b.cells 0).toNat 0 = some none := by
  have hcur := hd.cur
  have hwords := hd.words
  have hfind := findNull_spec (i := 0) (n := (b.cells 0).toNat) hd.read (by omega)
  rcases hfind with ⟨j, -, -, hlt, hzero⟩ | ⟨hnone, -⟩
  · exact absurd hzero (hnull j (by omega))
  · exact hnone

/-- An added value is put behind the others. -/
theorem HasDarray.add_behind (hd : HasDarray h p n b) (fresh : ℕ → BitVec 32) (v : BitVec 32)
    (hnull : ∀ i < (b.cells 0).toNat, b.cells (i + 2) ≠ 0) (hroom : (b.cells 0).toNat + 1 < n) :
    ∃ h', darrayAdd fresh h p v = some (h', ((b.cells 0).toNat : ℤ)) ∧
      HasDarray h' p n { b with
        cells := Function.update (Function.update b.cells 0 (b.cells 0 + 1))
          ((b.cells 0).toNat + 2) v } := by
  have hwords := hd.words
  obtain ⟨h₁, hset, hread⟩ := setWord_of_lt (i := 0) hd.read (by omega) (b.cells 0 + 1)
  have hset' : setWord h p 0 (b.cells 0 + 1) = some h₁ := by exact_mod_cast hset
  have hd₁ : HasDarray h₁ p n { b with cells := Function.update b.cells 0 (b.cells 0 + 1) } := by
    refine ⟨hread, hd.words, ?_, ?_, hd.small⟩
    · exact hd.max
    · have hcur : (b.cells 0 + 1).toNat < n := by rw [hd.cur_succ]; exact hroom
      exact hcur
  obtain ⟨h', hput, hd'⟩ := hd₁.put hd.cur v
  refine ⟨h', ?_, hd'⟩
  have hno : ¬(b.cells 0 + 1).toInt ≥ (b.cells 1).toInt := by
    rw [hd.cur_succ_toInt, hd.max_toInt]
    omega
  have hmax : wordAt h₁ p 1 = some (b.cells 1) := hd₁.max_word
  simp only [darrayAdd, hd.cur_word, hd.cur_toInt, Int.toNat_natCast, hd.findNull_none hnull, hset',
    hmax, if_neg hno, hput, Option.bind_eq_bind, Option.bind_some]
  rfl

/-- An array without room is moved. -/
theorem HasDarray.add_moves {q : ℕ} (hd : HasDarray h (some q) n b) (fresh : ℕ → BitVec 32)
    (v : BitVec 32) (hnull : ∀ i < (b.cells 0).toNat, b.cells (i + 2) ≠ 0)
    (hroom : n ≤ (b.cells 0).toNat + 1) (hsmall : n + 6 < 2 ^ 30)
    (hadd : darrayAdd fresh h (some q) v = some (h', key)) : h'.read (some q) = none := by
  have hwords := hd.words
  obtain ⟨h₁, hset, hread⟩ := setWord_of_lt (i := 0) hd.read (by omega) (b.cells 0 + 1)
  have hset' : setWord h (some q) 0 (b.cells 0 + 1) = some h₁ := by exact_mod_cast hset
  have hmax : wordAt h₁ (some q) 1 = some (b.cells 1) := by
    exact_mod_cast wordAt_of_lt (i := 1) hread (show 1 < b.words by omega)
  have hyes : (b.cells 0 + 1).toInt ≥ (b.cells 1).toInt := by
    rw [hd.cur_succ_toInt, hd.max_toInt]
    omega
  simp only [darrayAdd, hd.cur_word, hd.cur_toInt, Int.toNat_natCast, hd.findNull_none hnull, hset',
    hmax, if_pos hyes, Option.bind_eq_bind, Option.bind_some, Option.bind_eq_some_iff] at hadd
  obtain ⟨⟨h₂, pnew⟩, hre, h₃, hset₃, h₄, hset₄, hret⟩ := hadd
  cases hret
  have hgrow : BitVec.ofNat 32 sizeofDarray + b.cells 1 * 4 <
      BitVec.ofNat 32 sizeofDarray + (b.cells 1 + BitVec.ofNat 32 mapGrow) * 4 := by
    have hfour : (4 : BitVec 32).toNat = 4 := rfl
    rw [hd.max, BitVec.lt_def, sizeofDarray, mapGrow]
    simp only [BitVec.toNat_add, BitVec.toNat_mul, BitVec.toNat_ofNat, hfour]
    omega
  exact setWord_freed hset₄ (setWord_freed hset₃ (heapRealloc_moves hread hgrow hre))

theorem HasDarray.set (hd : HasDarray h p n b) (hkey : i < n) (v : BitVec 32) :
    ∃ h', darraySet h p i v = some h' ∧
      HasDarray h' p n { b with cells := Function.update b.cells (i + 2) v } := by
  obtain ⟨h', hset, hd'⟩ := hd.put hkey v
  refine ⟨h', ?_, hd'⟩
  have hlt : (i : ℤ) < (b.cells 1).toInt := by
    rw [hd.max_toInt]
    omega
  simp only [darraySet, hd.max_word, Option.bind_eq_bind, Option.bind_some, if_pos hlt, hset]

theorem HasDarray.del (hd : HasDarray h p n b) (i : ℕ) :
    ∃ h', darrayDel h p i = some h' ∧
      HasDarray h' p n { b with
        cells := if i < (b.cells 0).toNat then Function.update b.cells (i + 2) 0
          else b.cells } := by
  by_cases hlt : i < (b.cells 0).toNat
  · obtain ⟨h', hset, hd'⟩ := hd.put (Nat.lt_trans hlt hd.cur) 0
    refine ⟨h', ?_, by rw [if_pos hlt]; exact hd'⟩
    have hlt' : (i : ℤ) < (b.cells 0).toInt := by
      rw [hd.cur_toInt]
      omega
    simp only [darrayDel, hd.cur_word, Option.bind_eq_bind, Option.bind_some, if_pos hlt', hset]
  · refine ⟨h, ?_, by rw [if_neg hlt]; exact hd⟩
    have hge : ¬(i : ℤ) < (b.cells 0).toInt := by
      rw [hd.cur_toInt]
      omega
    simp only [darrayDel, hd.cur_word, Option.bind_eq_bind, Option.bind_some, if_neg hge]

theorem darrayNew_spec (fresh : ℕ → BitVec 32) (h : Blocks Block) {size : BitVec 32}
    (hpos : 0 < size.toNat) (hsmall : size.toNat + 2 < 2 ^ 30) :
    ∃ h' q b, darrayNew fresh h size = some (h', some q) ∧
      HasDarray h' (some q) size.toNat b := by
  have hdata : (size * 4).toNat = size.toNat * 4 := by
    rw [BitVec.toNat_mul]
    simp only [BitVec.reduceToNat]
    omega
  have hbytes : (BitVec.ofNat 32 sizeofDarray + size * 4).toNat = 8 + size.toNat * 4 := by
    rw [BitVec.toNat_add, hdata, sizeofDarray, BitVec.toNat_ofNat]
    omega
  have hwords : (ebpfMalloc fresh (8 + size.toNat * 4)).words = size.toNat + 2 := by
    show (8 + size.toNat * 4) % 2 ^ 32 / 4 = _
    omega
  have hread : (h.alloc (ebpfMalloc fresh (8 + size.toNat * 4))).1.read (some h.count) =
      some (ebpfMalloc fresh (8 + size.toNat * 4)) := Blocks.alloc_cell_self
  generalize hb₀ : ebpfMalloc fresh (8 + size.toNat * 4) = b₀ at hread hwords
  obtain ⟨h₁, hset₁, hread₁⟩ := setWord_of_lt (i := 1) hread (by omega) size
  obtain ⟨h₂, hset₂, hread₂⟩ := setWord_of_lt (i := 0) hread₁ (show 0 < b₀.words by omega) 0
  obtain ⟨h₃, hclear, hread₃⟩ := clearWords_of_le (i := 2) (n := size.toNat) hread₂
    (show 2 + size.toNat ≤ b₀.words by omega)
  refine ⟨h₃, h.count, _, ?_, hread₃, hwords, ?_, ?_, hsmall⟩
  · have hset₁' : setWord (h.alloc b₀).1 (some h.count) 1 size = some h₁ := by exact_mod_cast hset₁
    have hset₂' : setWord h₁ (some h.count) 0 0 = some h₂ := by exact_mod_cast hset₂
    have hlen : size.toNat * 4 / 4 = size.toNat := by omega
    simp only [darrayNew, hbytes, hb₀, Blocks.alloc_snd, hdata, hlen, hset₁', hset₂', hclear,
      Option.bind_eq_bind, Option.bind_some]
    rfl
  · rw [BitVec.ofNat_toNat, BitVec.setWidth_eq]
    rfl
  · exact hpos

/-! ### Runs -/

/-- A run whose calls have all fitted. -/
structure DarrayRun.Valid (s : DarrayRun) (n : ℕ) (b : Block) : Prop where
  has : HasDarray s.heap s.handle n b
  found : ∀ key val, s.expected key = some val →
    0 ≤ key ∧ key < (b.cells 0).toNat ∧ b.cells (key + 2).toNat = val ∨
      (b.cells 0).toNat ≤ key ∧ val = 0

def ValidRun (n : ℕ) (o : Option DarrayRun) : Prop := ∃ s b, o = some s ∧ s.Valid n b

variable {s : DarrayRun} {o o' : Option DarrayRun} {op : DarrayOp}

theorem ValidRun.keepsValues (ho : ValidRun n o) : KeepsValues o := by
  obtain ⟨s, b, rfl, hs⟩ := ho
  refine ⟨s, rfl, by rw [hs.has.read]; rfl, fun key val hkey => ?_⟩
  rcases hs.found key val hkey with ⟨hpos, hlt, hval⟩ | ⟨hge, rfl⟩
  · rw [hs.has.get (by omega), if_pos hlt, hval]
  · rw [hs.has.get (by omega), if_neg (by omega)]

theorem DarrayRun.Valid.put (hs : s.Valid n b) (hi : i < (b.cells 0).toNat) (val : BitVec 32)
    (hd : HasDarray h' s.handle n { b with cells := Function.update b.cells (i + 2) val }) :
    DarrayRun.Valid { s with heap := h', expected := Function.update s.expected i (some val) } n
      { b with cells := Function.update b.cells (i + 2) val } := by
  refine ⟨hd, fun key v hkey => ?_⟩
  have hcur : Function.update b.cells (i + 2) val 0 = b.cells 0 :=
    Function.update_of_ne (by omega) ..
  simp only [hcur]
  by_cases hki : key = i
  · subst hki
    simp only [Function.update_self, Option.some.injEq] at hkey
    refine .inl ⟨by omega, by omega, ?_⟩
    have hidx : ((i : ℤ) + 2).toNat = i + 2 := by omega
    rw [hidx, Function.update_self, hkey]
  · simp only [Function.update_of_ne hki] at hkey
    refine (hs.found key v hkey).imp (fun ⟨hpos, hlt, hval⟩ => ⟨hpos, hlt, ?_⟩) id
    rw [Function.update_of_ne (by omega)]
    exact hval

theorem DarrayRun.Valid.putBehind (hs : s.Valid n b) (val : BitVec 32)
    (hd : HasDarray h' s.handle n { b with
      cells := Function.update (Function.update b.cells 0 (b.cells 0 + 1))
        ((b.cells 0).toNat + 2) val }) :
    DarrayRun.Valid { s with
        heap := h', expected := Function.update s.expected ((b.cells 0).toNat : ℤ) (some val) } n
      { b with
        cells := Function.update (Function.update b.cells 0 (b.cells 0 + 1))
          ((b.cells 0).toNat + 2) val } := by
  refine ⟨hd, fun key v hkey => ?_⟩
  have hcur : (Function.update (Function.update b.cells 0 (b.cells 0 + 1))
      ((b.cells 0).toNat + 2) val 0).toNat = (b.cells 0).toNat + 1 := by
    rw [Function.update_of_ne (by omega), Function.update_self, hs.has.cur_succ]
  simp only [hcur]
  by_cases hki : key = (b.cells 0).toNat
  · subst hki
    simp only [Function.update_self, Option.some.injEq] at hkey
    refine .inl ⟨by omega, by omega, ?_⟩
    have hidx : (((b.cells 0).toNat : ℤ) + 2).toNat = (b.cells 0).toNat + 2 := by omega
    rw [hidx, Function.update_self, hkey]
  · simp only [Function.update_of_ne hki] at hkey
    rcases hs.found key v hkey with ⟨hpos, hlt, hval⟩ | ⟨hge, hval⟩
    · refine .inl ⟨hpos, by omega, ?_⟩
      rw [Function.update_of_ne (by omega), Function.update_of_ne (by omega)]
      exact hval
    · exact .inr ⟨by omega, hval⟩

theorem DarrayRun.Valid.putNull (hs : s.Valid n b) (hi : (b.cells 0).toNat ≤ i)
    (hd : HasDarray h' s.handle n { b with cells := Function.update b.cells (i + 2) 0 }) :
    DarrayRun.Valid { s with heap := h', expected := Function.update s.expected i (some 0) } n
      { b with cells := Function.update b.cells (i + 2) 0 } := by
  refine ⟨hd, fun key v hkey => ?_⟩
  have hcur : Function.update b.cells (i + 2) 0 0 = b.cells 0 :=
    Function.update_of_ne (by omega) ..
  simp only [hcur]
  by_cases hki : key = i
  · subst hki
    simp only [Function.update_self, Option.some.injEq] at hkey
    exact .inr ⟨by omega, hkey.symm⟩
  · simp only [Function.update_of_ne hki] at hkey
    refine (hs.found key v hkey).imp (fun ⟨hpos, hlt, hval⟩ => ⟨hpos, hlt, ?_⟩) id
    rw [Function.update_of_ne (by omega)]
    exact hval

theorem DarrayRun.Valid.forget (hs : s.Valid n b) (key : ℤ) :
    DarrayRun.Valid { s with expected := Function.update s.expected key none } n b := by
  refine ⟨hs.has, fun k v hk => hs.found k v ?_⟩
  by_cases hkk : k = key
  · simp [hkk] at hk
  · simpa [hkk] using hk

/-- A key that is given out has no value yet. -/
theorem DarrayRun.Valid.expectAdded_eq (hs : s.Valid n b) (val : BitVec 32)
    (hkey : key < (b.cells 0).toNat → b.cells (key + 2).toNat = 0) :
    expectAdded s.expected key val = Function.update s.expected key (some val) := by
  rw [expectAdded]
  cases hold : s.expected key with
  | none => rfl
  | some old =>
      have hzero : old = 0 := by
        rcases hs.found key old hold with ⟨-, hlt, hval⟩ | ⟨-, hval⟩
        · exact hval.symm.trans (hkey hlt)
        · exact hval
      rw [hzero]
      rfl

theorem darrayCall_some (hcall : darrayCall (some s) op = some o') :
    s.Asked op = true ∧ o' = darrayStep s op := by
  simp only [darrayCall, Option.bind_some] at hcall
  split at hcall
  · cases hcall
    exact ⟨‹_›, rfl⟩
  · cases hcall

theorem DarrayRun.Valid.key_lt (hs : s.Valid n b) {val : BitVec 32}
    (hasked : s.Asked (.set key val) = true) : key < n := by
  simpa [DarrayRun.Asked, hs.has.max_word, hs.has.max_toInt] using hasked

/-- A call that fits keeps the run valid. -/
theorem ValidRun.call (ho : ValidRun n o) (hfits : DarrayFits o op)
    (hcall : darrayCall o op = some o') : ValidRun n o' := by
  obtain ⟨s, b, rfl, hs⟩ := ho
  obtain ⟨hasked, rfl⟩ := darrayCall_some hcall
  obtain ⟨s', b', hs', hread, hop⟩ := hfits
  cases hs'
  cases hs.has.read.symm.trans hread
  cases op with
  | add fresh val =>
      by_cases hnull : ∃ i < (b.cells 0).toNat, b.cells (i + 2) = 0
      · obtain ⟨h', i, hi, hzero, hadd, hd⟩ := hs.has.add_null fresh val hnull
        have hexpect : expectAdded s.expected i val = Function.update s.expected i (some val) :=
          hs.expectAdded_eq val fun _ => hzero
        refine ⟨_, _, ?_, hs.put hi val hd⟩
        simp only [darrayStep, hadd, hexpect, Option.bind_eq_bind, Option.bind_some]
        rfl
      · have hroom : (b.cells 0).toNat + 1 < n := by
          rw [← hs.has.max_toNat]
          exact hop.resolve_left hnull
        have hnone : ∀ i < (b.cells 0).toNat, b.cells (i + 2) ≠ 0 :=
          fun i hi hzero => hnull ⟨i, hi, hzero⟩
        obtain ⟨h', hadd, hd⟩ := hs.has.add_behind fresh val hnone hroom
        have hexpect : expectAdded s.expected (b.cells 0).toNat val =
            Function.update s.expected (b.cells 0).toNat (some val) :=
          hs.expectAdded_eq val fun hlt => absurd hlt (Int.lt_irrefl _)
        refine ⟨_, _, ?_, hs.putBehind val hd⟩
        simp only [darrayStep, hadd, hexpect, Option.bind_eq_bind, Option.bind_some]
        rfl
  | get key =>
      refine ⟨s, b, ?_, hs⟩
      simp only [darrayStep, hs.has.get hop, Option.bind_eq_bind, Option.bind_some]
      rfl
  | set key val =>
      obtain ⟨i, rfl⟩ := Int.eq_ofNat_of_zero_le hop.1
      have hlt := hs.key_lt hasked
      obtain ⟨h', hset, hd⟩ := hs.has.set (i := i) (by omega) val
      have hstep : darrayStep s (.set i val) =
          some { s with heap := h', expected := Function.update s.expected i (some val) } := by
        simp only [darrayStep, hset, Option.bind_eq_bind, Option.bind_some]
        rfl
      by_cases hi : i < (b.cells 0).toNat
      · exact ⟨_, _, hstep, hs.put hi val hd⟩
      · obtain rfl : val = 0 := hop.2.resolve_left (by omega)
        exact ⟨_, _, hstep, hs.putNull (by omega) hd⟩
  | del key =>
      obtain ⟨i, rfl⟩ := Int.eq_ofNat_of_zero_le hop
      obtain ⟨h', hdel, hd⟩ := hs.has.del i
      have hstep : darrayStep s (.del i) =
          some { s with heap := h', expected := Function.update s.expected i none } := by
        simp only [darrayStep, hdel, Option.bind_eq_bind, Option.bind_some]
        rfl
      by_cases hi : i < (b.cells 0).toNat
      · rw [if_pos hi] at hd
        have hforget := (hs.put hi 0 hd).forget i
        simp only [Function.update_idem] at hforget
        exact ⟨_, _, hstep, hforget⟩
      · rw [if_neg hi] at hd
        have hkept : DarrayRun.Valid { s with heap := h' } n b := ⟨hd, hs.found⟩
        exact ⟨_, _, hstep, hkept.forget i⟩

/-- A call that does not fit is where a run goes wrong. -/
theorem ValidRun.fits (ho : ValidRun n o) (hsmall : n + 6 < 2 ^ 30) (hop : op.NonNeg)
    (hcall : darrayCall o op = some o') (hkeeps : KeepsValues o') : DarrayFits o op := by
  obtain ⟨s, b, rfl, hs⟩ := ho
  obtain ⟨hasked, rfl⟩ := darrayCall_some hcall
  obtain ⟨t, ht, hlive, hvals⟩ := hkeeps
  refine ⟨s, b, rfl, hs.has.read, ?_⟩
  cases op with
  | add fresh val =>
      by_contra hno
      rw [not_or] at hno
      obtain ⟨hnull, hroom⟩ := hno
      rw [hs.has.max_toNat] at hroom
      have hnone : ∀ i < (b.cells 0).toNat, b.cells (i + 2) ≠ 0 :=
        fun i hi hzero => hnull ⟨i, hi, hzero⟩
      simp only [darrayStep, Option.bind_eq_bind, Option.bind_eq_some_iff] at ht
      obtain ⟨⟨h', key⟩, hadd, hret⟩ := ht
      cases hret
      obtain ⟨heap, handle, expected⟩ := s
      cases handle with
      | none => cases hs.has.read
      | some q =>
          rw [hs.has.add_moves fresh val hnone (by omega) hsmall hadd] at hlive
          cases hlive
  | get key =>
      by_contra hkey
      have hget : darrayGet s.heap s.handle key = none := by
        have hcur := hs.has.cur_toInt
        have hlt : key < (b.cells 0).toInt := by omega
        have hout : ¬(0 ≤ key + 2 ∧ key + 2 < b.words) := by omega
        have hword : wordAt s.heap s.handle (key + 2) = none := by
          simp only [wordAt, hs.has.read, Option.bind_eq_bind, Option.bind_some, if_neg hout]
        simp only [darrayGet, hs.has.cur_word, Option.bind_eq_bind, Option.bind_some, if_pos hlt,
          hword]
      simp only [darrayStep, hget, Option.bind_eq_bind, Option.bind_none] at ht
      cases ht
  | set key val =>
      refine ⟨hop, ?_⟩
      by_contra hno
      rw [not_or] at hno
      obtain ⟨i, rfl⟩ := Int.eq_ofNat_of_zero_le hop
      have hlt := hs.key_lt hasked
      obtain ⟨h', hset, hd⟩ := hs.has.set (i := i) (by omega) val
      simp only [darrayStep, hset, Option.bind_eq_bind, Option.bind_some] at ht
      cases ht
      have hfound := hvals i val (Function.update_self ..)
      have hcur : Function.update b.cells (i + 2) val 0 = b.cells 0 :=
        Function.update_of_ne (by omega) ..
      rw [hd.get (by omega)] at hfound
      simp only [hcur, if_neg hno.1, Option.some.injEq] at hfound
      exact hno.2 hfound.symm
  | del key => exact hop

end

/-- An array of a size whose bytes can be counted keeps its handle and its
values as long as every call fits; and where no key is negative, and there are
bytes for the growth, no longer. -/
theorem darray_keeps_values (fresh : ℕ → BitVec 32) (h : Blocks Block) (size : BitVec 32)
    (hpos : 0 < size.toNat) (hsmall : size.toNat + 2 < 2 ^ 30) (ops : List DarrayOp) :
    (EachStep darrayCall DarrayFits (darrayRun fresh h size) ops →
      Throughout darrayCall KeepsValues (darrayRun fresh h size) ops) ∧
    (size.toNat + 6 < 2 ^ 30 → (∀ op ∈ ops, op.NonNeg) →
      Throughout darrayCall KeepsValues (darrayRun fresh h size) ops →
        EachStep darrayCall DarrayFits (darrayRun fresh h size) ops) := by
  obtain ⟨h', q, b, hnew, hd⟩ := darrayNew_spec fresh h hpos hsmall
  have hvalid : ValidRun size.toNat (darrayRun fresh h size) := by
    refine ⟨⟨h', some q, fun _ => none⟩, b, ?_, hd, fun key val hkey => by cases hkey⟩
    rw [darrayRun, hnew]
    rfl
  have hstep (u : Option DarrayRun) (e : DarrayOp) (v : Option DarrayRun)
      (hu : ValidRun size.toNat u) (hC : DarrayFits u e) (hv : darrayCall u e = some v) :
      ValidRun size.toNat v := hu.call hC hv
  refine ⟨throughout_of_eachStep hstep (fun _ hu => hu.keepsValues) hvalid, fun hgrow hops => ?_⟩
  exact eachStep_of_throughout hstep
    (fun _ _ _ hu hop hv hkeeps => hu.fits hgrow hop hv hkeeps) hvalid hops

theorem four_slots_keep :
    Throughout darrayCall KeepsValues (darrayRun (fun _ => 0) .empty 4)
      [.add (fun _ => 0) 5, .set 0 7, .get 0] := by
  refine (darray_keeps_values (fun _ => 0) .empty 4 (by decide) (by decide) _).1 ?_
  intro t₁ h₁
  refine ⟨⟨_, _, rfl, rfl, .inr (by decide)⟩, fun t₂ h₂ => ?_⟩
  cases h₁
  refine ⟨⟨_, _, rfl, rfl, by decide⟩, fun t₃ h₃ => ?_⟩
  cases h₂
  exact ⟨⟨_, _, rfl, rfl, by decide⟩, trivial⟩

/-- A first value leaves no room in one slot and moves the array; and a value
set in an empty array is not found. -/
theorem grown_and_sparse_fail :
    ¬Throughout darrayCall KeepsValues (darrayRun (fun _ => 0) .empty 1) [.add (fun _ => 0) 5] ∧
      ¬Throughout darrayCall KeepsValues (darrayRun (fun _ => 0) .empty 4) [.set 2 7] := by
  refine ⟨fun h => ?_, fun h => ?_⟩
  · obtain ⟨s, hs, hlive, -⟩ := (h.2 _ rfl).head
    cases hs
    exact absurd hlive (by decide)
  · obtain ⟨s, hs, -, hfound⟩ := (h.2 _ rfl).head
    cases hs
    exact absurd (hfound 2 7 rfl) (by decide)

end RapidPatch.Store
