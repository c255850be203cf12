import RapidPatch.Store.FiniteMap

/-!
`arraymap`, with every access checked.

The operations are written down once more, and each of them is `none` where it
reads or writes a slot that is not in its block, or copies more than a block
holds. Where a checked operation is not `none`, it is the operation of
`Arraymap` (`Inside.applyChecked`). An exactly full table is where the checks
fail: the slot behind the keys in use is compared with the key to be set, it
is moved down by a deletion, and growth copies the size of a `darray` on top
of the slots. `OpFits` says when a call stays inside, and a run stays inside
exactly if each of its calls fits the table it finds
(`arraymap_staysInside_iff`).
-/

namespace RapidPatch.Store

open RapidPatch.Support

/-! ### Checked operations -/

def Block.checkedRead (b : Block) (i : ℕ) : Option (BitVec 32) :=
  if i < b.words then some (b.cells i) else none

/-- `ebpf_realloc`, if the bytes it copies are in the old block. -/
def checkedRealloc (b : Block) (fresh : ℕ → BitVec 32) (oriSize newSize : ℕ) : Option Block :=
  if newSize = 0 ∨ newSize ≤ oriSize ∨ oriSize ≤ b.words * 4 then
    some (ebpfRealloc b (fun _ => 0) fresh oriSize newSize)
  else none

def checkedBinarySearchLoop (b : Block) (val : BitVec 32) (start stop : ℤ) : Option ℤ :=
  if start ≤ stop then do
    let mid := (start + stop) / 2
    let m ← b.checkedRead mid.toNat
    if m = val then some mid
    else if val < m then checkedBinarySearchLoop b val start (mid - 1)
    else checkedBinarySearchLoop b val (mid + 1) stop
  else some (-1)
termination_by (stop + 1 - start).toNat

def checkedLowerBoundLoop (b : Block) (val : BitVec 32) (start stop : ℕ) : Option ℕ :=
  if start + 1 < stop then do
    let mid := (start + stop) / 2
    let m ← b.checkedRead mid
    if m < val then checkedLowerBoundLoop b val mid stop
    else checkedLowerBoundLoop b val start mid
  else some stop
termination_by stop - start

namespace Arraymap

def checkedGrow (m : Arraymap) (h : Heap) : Option Arraymap := do
  let newSize := m.maxSize.toNat + mapGrow
  let oriSize := sizeofDarray + m.maxSize.toNat * 4
  let keys ← checkedRealloc m.keys h.keysFresh oriSize (newSize * 4)
  let vals ← checkedRealloc m.vals h.valsFresh oriSize (newSize * 4)
  return { m with keys := keys, vals := vals, maxSize := BitVec.ofNat 16 newSize }

/-- Slot `j` moves to slot `i`. -/
def checkedMove (m : Arraymap) (j i : ℕ) : Option Arraymap := do
  let key ← m.keys.checkedRead j
  let val ← m.vals.checkedRead j
  m.put i key val

def checkedShiftUp (insert : ℕ) : ℕ → Arraymap → Option Arraymap
  | 0, m => some m
  | i + 1, m =>
      if insert < i + 1 then do
        let m ← m.checkedMove i (i + 1)
        checkedShiftUp insert i m
      else some m

def checkedShiftDown : ℕ → ℕ → Arraymap → Option Arraymap
  | 0, _, m => some m
  | n + 1, i, m => do
      let m ← m.checkedMove (i + 1) i
      checkedShiftDown n (i + 1) m

end Arraymap

/-- `arraymap_set`, checked. -/
def checkedSet (h : Heap) (m : Arraymap) (key val : BitVec 32) :
    Option (Arraymap × Option ℕ) :=
  if m.curSize = 0 then do
    let m ← m.put 0 key val
    return ({ m with curSize := m.curSize + 1 }, some 0)
  else do
    let insert ← checkedLowerBoundLoop m.keys key 0 m.curSize.toNat
    let found ← m.keys.checkedRead insert
    if found = key then do
      let vals ← m.vals.write insert val
      return ({ m with vals := vals }, none)
    else do
      let m ← if m.maxSize ≤ m.curSize then m.checkedGrow h else some m
      let m ← m.checkedShiftUp insert m.curSize.toNat
      let m ← m.put insert key val
      return ({ m with curSize := m.curSize + 1 }, some insert)

/-- `arraymap_get`, checked. -/
def checkedGet (m : Arraymap) (key : BitVec 32) : Option (BitVec 32) := do
  let idx ← checkedBinarySearchLoop m.keys key 0 (m.curSize.toNat - 1)
  if idx ≠ -1 then m.vals.checkedRead idx.toNat else some 0

/-- `arraymap_del`, checked. -/
def checkedDel (m : Arraymap) (key : BitVec 32) : Option Arraymap := do
  let idx ← checkedBinarySearchLoop m.keys key 0 (m.curSize.toNat - 1)
  if idx ≠ -1 then do
    let m ← m.checkedShiftDown (m.curSize.toNat - idx.toNat) idx.toNat
    let m := { m with curSize := m.curSize - 1 }
    m.put m.curSize.toNat 0 0
  else some m

def applyChecked (h : Heap) (m : Arraymap) : Op → Option Arraymap
  | .set key val => (checkedSet h m key val).map Prod.fst
  | .get key => (checkedGet m key).map fun _ => m
  | .del key => checkedDel m key

/-- All accesses of a run are inside the blocks as they are at that moment, and
`cur_size` is `max_size` at most after every call. -/
def StaysInside (m : Arraymap) : List (Heap × Op) → Prop
  | [] => True
  | (h, op) :: ops =>
      ∃ m', applyChecked h m op = some m' ∧ m'.curSize ≤ m'.maxSize ∧ StaysInside m' ops

/-! ### Checked and unchecked -/

section

variable {b : Block} {h : Heap} {m m' : Arraymap} {k v x : BitVec 32} {i j n : ℕ}

theorem checkedRead_of_lt (behind : ℕ → BitVec 32) (hi : i < b.words) :
    b.checkedRead i = some (b.read behind i) := by
  rw [Block.checkedRead, if_pos hi, Block.read, if_pos hi]

theorem checkedRead_of_le (hi : b.words ≤ i) : b.checkedRead i = none :=
  if_neg (Nat.not_lt.mpr hi)

theorem checkedBinarySearchLoop_eq (behind : ℕ → BitVec 32) {start stop : ℤ}
    (hstart : 0 ≤ start) (hstop : stop < b.words) :
    checkedBinarySearchLoop b k start stop =
      some (binarySearchLoop (b.read behind) k start stop) := by
  fun_induction binarySearchLoop (b.read behind) k start stop with
  | case1 start stop hle mid y heq =>
      have hread : b.checkedRead mid.toNat = some y := checkedRead_of_lt behind (by omega)
      rw [checkedBinarySearchLoop, if_pos hle]
      show (b.checkedRead mid.toNat).bind _ = _
      rw [hread]
      exact if_pos heq
  | case2 start stop hle mid y hne hlt ih =>
      have hread : b.checkedRead mid.toNat = some y := checkedRead_of_lt behind (by omega)
      rw [checkedBinarySearchLoop, if_pos hle]
      show (b.checkedRead mid.toNat).bind _ = _
      rw [hread]
      exact (if_neg hne).trans ((if_pos hlt).trans (ih hstart (by omega)))
  | case3 start stop hle mid y hne hge ih =>
      have hread : b.checkedRead mid.toNat = some y := checkedRead_of_lt behind (by omega)
      rw [checkedBinarySearchLoop, if_pos hle]
      show (b.checkedRead mid.toNat).bind _ = _
      rw [hread]
      exact (if_neg hne).trans ((if_neg hge).trans (ih (by omega) hstop))
  | case4 start stop hgt =>
      rw [checkedBinarySearchLoop, if_neg hgt]

theorem checkedLowerBoundLoop_eq (behind : ℕ → BitVec 32) {stop : ℕ} (hstop : stop ≤ b.words)
    (start : ℕ) :
    checkedLowerBoundLoop b k start stop = some (lowerBoundLoop (b.read behind) k start stop) := by
  fun_induction lowerBoundLoop (b.read behind) k start stop with
  | case1 start stop hlt mid hless ih =>
      have hread : b.checkedRead mid = some (b.read behind mid) :=
        checkedRead_of_lt behind (by omega)
      rw [checkedLowerBoundLoop, if_pos hlt]
      show (b.checkedRead mid).bind _ = _
      rw [hread]
      exact (if_pos hless).trans (ih hstop)
  | case2 start stop hlt mid hge ih =>
      have hread : b.checkedRead mid = some (b.read behind mid) :=
        checkedRead_of_lt behind (by omega)
      rw [checkedLowerBoundLoop, if_pos hlt]
      show (b.checkedRead mid).bind _ = _
      rw [hread]
      exact (if_neg hge).trans (ih (by omega))
  | case3 start stop hge =>
      rw [checkedLowerBoundLoop, if_neg hge]

namespace Arraymap

theorem checkedMove_eq (hfit : m.Fits n) (hj : j < n) (i : ℕ) :
    m.checkedMove j i = m.put i (m.key h j) (m.val h j) := by
  have hk : j < m.keys.words := Nat.lt_of_lt_of_le hj hfit.1
  have hv : j < m.vals.words := Nat.lt_of_lt_of_le hj hfit.2
  rw [checkedMove, checkedRead_of_lt h.keysBehind hk, checkedRead_of_lt h.valsBehind hv]
  rfl

theorem checkedShiftUp_eq (insert : ℕ) (hfit : m.Fits (i + 1)) :
    m.checkedShiftUp insert i = m.shiftUp h insert i := by
  induction i generalizing m with
  | zero => rfl
  | succ i ih =>
      rw [checkedShiftUp, shiftUp, checkedMove_eq (h := h) hfit (by omega), put_eq hfit (by omega)]
      split
      · exact ih (hfit.mono (Nat.le_succ _))
      · rfl

theorem checkedShiftDown_eq (hfit : m.Fits (i + n + 1)) :
    m.checkedShiftDown n i = m.shiftDown h n i := by
  induction n generalizing m i with
  | zero => rfl
  | succ n ih =>
      rw [checkedShiftDown, shiftDown, checkedMove_eq (h := h) hfit (by omega),
        put_eq hfit (by omega)]
      refine ih ?_
      have heq : i + 1 + n + 1 = i + (n + 1) + 1 := by omega
      rw [heq]
      exact hfit

/-- The sizes and the lengths of the blocks are the same. -/
structure SameShape (m m' : Arraymap) : Prop where
  maxSize : m'.maxSize = m.maxSize
  curSize : m'.curSize = m.curSize
  keys : m'.keys.words = m.keys.words
  vals : m'.vals.words = m.vals.words

theorem put_shape (hput : m.put i k v = some m') : SameShape m m' := by
  simp only [put, Block.write, Option.bind_eq_bind, Option.bind_eq_some_iff] at hput
  obtain ⟨keys, hkeys, vals, hvals, hm'⟩ := hput
  cases hm'
  split at hkeys
  · split at hvals
    · cases hkeys
      cases hvals
      exact ⟨rfl, rfl, rfl, rfl⟩
    · cases hvals
  · cases hkeys

/-- The last turn of a deletion reads the slot behind the keys in use. -/
theorem checkedShiftDown_full (hn : 0 < n) (hwords : m.keys.words ≤ i + n) :
    m.checkedShiftDown n i = none := by
  induction n generalizing m i with
  | zero => omega
  | succ n ih =>
      rw [checkedShiftDown, Option.bind_eq_bind, Option.bind_eq_none_iff]
      intro m' hm'
      obtain ⟨key, hkey, hm'⟩ := Option.bind_eq_some_iff.mp hm'
      obtain ⟨val, -, hput⟩ := Option.bind_eq_some_iff.mp hm'
      have hread : i + 1 < m.keys.words := by
        by_contra hge
        rw [checkedRead_of_le (by omega)] at hkey
        cases hkey
      refine ih (by omega) ?_
      rw [(put_shape hput).keys]
      omega

/-- An insertion into a table with room for one more slot. -/
theorem checkedShiftUp_put (hfit : m.Fits (n + 1)) (hi : i ≤ n) :
    ∃ m₁ m₂, m.checkedShiftUp i n = some m₁ ∧ m.shiftUp h i n = some m₁ ∧
      m₁.put i k v = some m₂ ∧ SameShape m m₂ := by
  have hup := shiftUp_eq (h := h) i n hfit
  have hput := put_eq (m := m.withCells (movedUp i n m.keys.cells) (movedUp i n m.vals.cells))
    hfit (Nat.lt_succ_of_le hi) k v
  exact ⟨_, _, (checkedShiftUp_eq i hfit).trans hup, hup, hput, rfl, rfl, rfl, rfl⟩

end Arraymap

/-! ### One call -/

/-- The sizes of the table say at most what its blocks hold. -/
structure Inside (m : Arraymap) : Prop where
  same : m.keys.words = m.vals.words
  cur : m.curSize ≤ m.maxSize
  max : m.maxSize.toNat ≤ m.keys.words

/-- The slot of `lower_bound` is inside the blocks, and if the key is to be
inserted into a full table, then the blocks are longer than `max_size` says
and the sizes do not wrap. -/
structure SetFits (m : Arraymap) (key : BitVec 32) : Prop where
  empty : m.curSize = 0 → m.maxSize ≠ 0
  slot : m.curSize ≠ 0 → lowerBound m.keys.cells m.curSize.toNat key < m.keys.words
  grows : m.curSize ≠ 0 → m.keys.cells (lowerBound m.keys.cells m.curSize.toNat key) ≠ key →
    m.maxSize ≤ m.curSize → m.maxSize.toNat + 2 ≤ m.keys.words ∧ m.curSize + 1 ≤ m.maxSize + 4

/-- When a call stays inside. A deletion needs a slot behind the keys in use. -/
def OpFits (m : Arraymap) : Op → Prop
  | .set key _ => SetFits m key
  | .get _ => True
  | .del key => binarySearch m.keys.cells m.curSize.toNat key ≠ -1 →
      m.curSize.toNat < m.keys.words

/-- What one call does, where its accesses are inside the blocks and where
not. -/
inductive CallOutcome (fits : Prop) (checked unchecked : Option Arraymap) : Prop
  | inside (hfits : fits) (m' : Arraymap) (hchecked : checked = some m')
      (hsame : unchecked = some m') (h : Inside m')
  | outside (hfits : ¬fits) (hchecked : ∀ m', checked = some m' → ¬m'.curSize ≤ m'.maxSize)

theorem CallOutcome.congr {fits fits' : Prop} {checked unchecked : Option Arraymap}
    (h : CallOutcome fits checked unchecked) (hiff : fits ↔ fits') :
    CallOutcome fits' checked unchecked := by
  cases h with
  | inside hfits m' hchecked hsame hin => exact .inside (hiff.mp hfits) m' hchecked hsame hin
  | outside hfits hchecked => exact .outside (fun h => hfits (hiff.mpr h)) hchecked

theorem Inside.fits (hm : Inside m) (hn : n ≤ m.keys.words) : m.Fits n :=
  ⟨hn, hm.same ▸ hn⟩

theorem Inside.cur_le (hm : Inside m) : m.curSize.toNat ≤ m.keys.words :=
  Nat.le_trans hm.cur hm.max

theorem read_cells (b : Block) : b.read b.cells = b.cells := by
  funext i
  exact ite_self _

theorem Inside.search_lt (hm : Inside m) : (m.curSize.toNat : ℤ) - 1 < m.keys.words := by
  have := hm.cur_le
  omega

/-- The searches look at slots in use only. -/
theorem Inside.lowerBound_cells (hm : Inside m) (h : Heap) (k : BitVec 32) :
    lowerBound (m.key h) m.curSize.toNat k =
      lowerBound m.keys.cells m.curSize.toNat k := by
  have h₁ := checkedLowerBoundLoop_eq (k := k) h.keysBehind hm.cur_le 0
  have h₂ := checkedLowerBoundLoop_eq (k := k) m.keys.cells hm.cur_le 0
  rw [read_cells] at h₂
  exact Option.some.inj (h₁.symm.trans h₂)

theorem Inside.binarySearch_cells (hm : Inside m) (h : Heap) (k : BitVec 32) :
    binarySearch (m.key h) m.curSize.toNat k =
      binarySearch m.keys.cells m.curSize.toNat k := by
  have h₁ := checkedBinarySearchLoop_eq (k := k) h.keysBehind (Int.le_refl 0) hm.search_lt
  have h₂ := checkedBinarySearchLoop_eq (k := k) m.keys.cells (Int.le_refl 0) hm.search_lt
  rw [read_cells] at h₂
  exact Option.some.inj (h₁.symm.trans h₂)

/-- The first key needs one slot. -/
theorem Inside.set_empty (hm : Inside m) (hzero : m.curSize = 0) :
    CallOutcome (SetFits m k) ((checkedSet h m k v).map Prod.fst)
      ((arraymapSet h m k v).map Prod.fst) := by
  have hone : (m.curSize + 1).toNat = 1 := by rw [hzero]; rfl
  simp only [checkedSet, arraymapSet, if_pos hzero]
  by_cases hmax : m.maxSize = 0
  · refine .outside (fun h => h.empty hzero hmax) fun m' hm' => ?_
    obtain ⟨r, hr, rfl⟩ := Option.map_eq_some_iff.mp hm'
    obtain ⟨m₁, hput, hr⟩ := Option.bind_eq_some_iff.mp hr
    cases hr
    show ¬m₁.curSize + 1 ≤ m₁.maxSize
    rw [(Arraymap.put_shape hput).curSize, (Arraymap.put_shape hput).maxSize, BitVec.le_def, hone,
      hmax]
    decide
  · have hpos : 0 < m.maxSize.toNat := by bv_omega
    have hwords : 1 ≤ m.keys.words := Nat.le_trans hpos hm.max
    have hput := Arraymap.put_eq (hm.fits hwords) Nat.one_pos k v
    rw [hput]
    refine .inside ⟨fun _ => hmax, fun hne => absurd hzero hne, fun hne => absurd hzero hne⟩ _ rfl
      rfl ⟨hm.same, ?_, hm.max⟩
    show m.curSize + 1 ≤ m.maxSize
    rw [BitVec.le_def, hone]
    exact hpos

/-- Growth copies two words more than the slots are. -/
theorem checkedRealloc_grow (b : Block) (behind fresh : ℕ → BitVec 32) {n : ℕ} (hn : n < 2 ^ 16) :
    checkedRealloc b fresh (sizeofDarray + n * 4) ((n + mapGrow) * 4) =
      if n + 2 ≤ b.words then
        some (ebpfRealloc b behind fresh (sizeofDarray + n * 4) ((n + mapGrow) * 4))
      else none := by
  have hgrow : mapGrow = 4 := rfl
  have hdarray : sizeofDarray = 8 := rfl
  rw [checkedRealloc]
  by_cases hle : n + 2 ≤ b.words
  · rw [if_pos (by omega), if_pos hle, ebpfRealloc_grow _ _ _ hn, ebpfRealloc_grow _ _ _ hn]
    congr 2
    funext i
    split
    · rename_i hi
      rw [Block.read, if_pos (by omega), Block.read, if_pos (by omega)]
    · rfl
  · rw [if_neg (by omega), if_neg hle]

theorem Inside.checkedGrow (hm : Inside m) (h : Heap) :
    m.checkedGrow h = if m.maxSize.toNat + 2 ≤ m.keys.words then some (m.grow h) else none := by
  rw [Arraymap.checkedGrow]
  simp only [checkedRealloc_grow m.keys h.keysBehind h.keysFresh m.maxSize.isLt,
    checkedRealloc_grow m.vals h.valsBehind h.valsFresh m.maxSize.isLt, ← hm.same]
  split
  · rfl
  · rfl

/-- The slots of `m` can be moved in the table `w`, which has room for one more. -/
structure HasRoom (m w : Arraymap) : Prop where
  fits : w.Fits (m.curSize.toNat + 1)
  cur : w.curSize = m.curSize
  max : w.maxSize.toNat ≤ w.keys.words
  same : w.keys.words = w.vals.words
  counts : w.curSize + 1 ≤ w.maxSize ↔
    (m.maxSize ≤ m.curSize → m.curSize + 1 ≤ m.maxSize + 4)

theorem Inside.room (hm : Inside m) (hfull : ¬m.maxSize ≤ m.curSize) : HasRoom m m := by
  have hlt : m.curSize.toNat < m.maxSize.toNat := Nat.lt_of_not_le hfull
  refine ⟨hm.fits (Nat.le_trans hlt hm.max), rfl, hm.max, hm.same, iff_of_true ?_ ?_⟩
  · bv_omega
  · exact fun hle => absurd hle hfull

theorem Inside.room_grow (hm : Inside m) (h : Heap) (hfull : m.maxSize ≤ m.curSize) :
    HasRoom m (m.grow h) := by
  have realloc (b : Block) (behind fresh : ℕ → BitVec 32) :=
    ebpfRealloc_grow b behind fresh m.maxSize.isLt
  have hk : (m.grow h).keys.words = m.maxSize.toNat + 4 := by
    simp only [Arraymap.grow, realloc]
  have hv : (m.grow h).vals.words = m.maxSize.toNat + 4 := by
    simp only [Arraymap.grow, realloc]
  have hmax : (m.grow h).maxSize = m.maxSize + 4 := by
    apply BitVec.eq_of_toNat_eq
    simp only [Arraymap.grow, mapGrow, BitVec.toNat_ofNat, BitVec.toNat_add]
    rfl
  have hcur : m.curSize.toNat ≤ m.maxSize.toNat := hm.cur
  refine ⟨⟨?_, ?_⟩, rfl, ?_, ?_, ?_⟩
  · omega
  · omega
  · rw [hmax, hk, BitVec.toNat_add]
    exact Nat.mod_le _ _
  · rw [hk, hv]
  · rw [hmax]
    exact ⟨fun hle _ => hle, fun hle => hle hfull⟩

/-- A further key goes into a table that has room for it, after the keys up to
its slot. -/
theorem HasRoom.insert {w : Arraymap} (hw : HasRoom m w) (hi : i ≤ m.curSize.toNat) :
    CallOutcome (m.maxSize ≤ m.curSize → m.curSize + 1 ≤ m.maxSize + 4)
      (((w.checkedShiftUp i w.curSize.toNat).bind fun m => (m.put i k v).bind fun m =>
        some ({ m with curSize := m.curSize + 1 }, some i)).map Prod.fst)
      (((w.shiftUp h i w.curSize.toNat).bind fun m => (m.put i k v).bind fun m =>
        some ({ m with curSize := m.curSize + 1 }, some i)).map Prod.fst) := by
  obtain ⟨m₁, m₂, hchecked, hup, hput, hshape⟩ :=
    Arraymap.checkedShiftUp_put (h := h) (k := k) (v := v) hw.fits hi
  have hcounts := hw.counts
  rw [← hshape.curSize, ← hshape.maxSize] at hcounts
  rw [hw.cur, hchecked, hup, Option.bind_some, hput]
  by_cases hle : m₂.curSize + 1 ≤ m₂.maxSize
  · refine .inside (hcounts.mp hle) _ rfl rfl ⟨?_, hle, ?_⟩
    · show m₂.keys.words = m₂.vals.words
      rw [hshape.keys, hshape.vals]
      exact hw.same
    · show m₂.maxSize.toNat ≤ m₂.keys.words
      rw [hshape.maxSize, hshape.keys]
      exact hw.max
  · refine .outside (fun hfits => hle (hcounts.mpr hfits)) fun m' hm' => ?_
    cases hm'
    exact hle

theorem setFits_iff (hne : m.curSize ≠ 0) :
    SetFits m k ↔
      lowerBound m.keys.cells m.curSize.toNat k < m.keys.words ∧
        (m.keys.cells (lowerBound m.keys.cells m.curSize.toNat k) ≠ k → m.maxSize ≤ m.curSize →
          m.maxSize.toNat + 2 ≤ m.keys.words ∧ m.curSize + 1 ≤ m.maxSize + 4) :=
  ⟨fun h => ⟨h.slot hne, h.grows hne⟩, fun h => ⟨fun hzero => absurd hzero hne, fun _ => h.1,
    fun _ => h.2⟩⟩

theorem Inside.set (hm : Inside m) (h : Heap) (k v : BitVec 32) :
    CallOutcome (SetFits m k) ((checkedSet h m k v).map Prod.fst)
      ((arraymapSet h m k v).map Prod.fst) := by
  by_cases hzero : m.curSize = 0
  · exact hm.set_empty hzero
  · have hle : lowerBound m.keys.cells m.curSize.toNat k ≤ m.curSize.toNat :=
      lowerBoundLoop_le m.keys.cells k 0 m.curSize.toNat
    have hslot : checkedLowerBoundLoop m.keys k 0 m.curSize.toNat =
        some (lowerBound m.keys.cells m.curSize.toNat k) := by
      have hchecked := checkedLowerBoundLoop_eq (k := k) m.keys.cells hm.cur_le 0
      rwa [read_cells] at hchecked
    simp only [checkedSet, arraymapSet, if_neg hzero, hslot, hm.lowerBound_cells h k,
      Option.bind_eq_bind, Option.bind_some, setFits_iff hzero]
    generalize lowerBound m.keys.cells m.curSize.toNat k = i at hle ⊢
    by_cases hi : i < m.keys.words
    · have hread : m.keys.checkedRead i = some (m.keys.cells i) := if_pos hi
      have hkey : m.key h i = m.keys.cells i := if_pos hi
      rw [hread, hkey, Option.bind_some]
      by_cases hfound : m.keys.cells i = k
      · have hwrite : m.vals.write i v =
            some { m.vals with cells := Function.update m.vals.cells i v } :=
          if_pos (hm.same ▸ hi)
        rw [if_pos hfound, if_pos hfound, hwrite]
        exact .inside ⟨hi, fun hno => absurd hfound hno⟩ _ rfl rfl ⟨hm.same, hm.cur, hm.max⟩
      · simp only [if_neg hfound]
        by_cases hfull : m.maxSize ≤ m.curSize
        · simp only [if_pos hfull, hm.checkedGrow h]
          by_cases hwords : m.maxSize.toNat + 2 ≤ m.keys.words
          · rw [if_pos hwords, Option.bind_some]
            refine ((hm.room_grow h hfull).insert hle).congr ?_
            exact ⟨fun hcur => ⟨hi, fun _ hf => ⟨hwords, hcur hf⟩⟩,
              fun hfits hf => (hfits.2 hfound hf).2⟩
          · rw [if_neg hwords]
            exact .outside (fun hfits => hwords (hfits.2 hfound hfull).1) fun m' hm' => by
              cases hm'
        · simp only [if_neg hfull]
          refine ((hm.room hfull).insert hle).congr ?_
          exact iff_of_true (fun hf => absurd hf hfull) ⟨hi, fun _ hf => absurd hf hfull⟩
    · have hread : m.keys.checkedRead i = none := if_neg hi
      rw [hread]
      exact .outside (fun hfits => hi hfits.1) fun m' hm' => by cases hm'

theorem binarySearchLoop_range (arr : ℕ → BitVec 32) {start : ℤ} (hstart : 0 ≤ start) (stop : ℤ)
    (hstop : stop < n) :
    binarySearchLoop arr k start stop = -1 ∨ ∃ i < n, binarySearchLoop arr k start stop = i := by
  fun_induction binarySearchLoop arr k start stop with
  | case1 start stop hle mid y heq => exact .inr ⟨mid.toNat, by omega, by omega⟩
  | case2 start stop hle mid y hne hlt ih => exact ih hstart (by omega)
  | case3 start stop hle mid y hne hge ih => exact ih (by omega) hstop
  | case4 start stop hgt => exact .inl rfl

theorem Inside.del (hm : Inside m) (h : Heap) (k : BitVec 32) :
    CallOutcome (OpFits m (.del k)) (checkedDel m k) (arraymapDel h m k) := by
  have hsearch : checkedBinarySearchLoop m.keys k 0 (m.curSize.toNat - 1) =
      some (binarySearch m.keys.cells m.curSize.toNat k) := by
    have hchecked := checkedBinarySearchLoop_eq (k := k) m.keys.cells (Int.le_refl 0) hm.search_lt
    rwa [read_cells] at hchecked
  have hcells := hm.binarySearch_cells h k
  have hrange := binarySearchLoop_range (k := k) (n := m.curSize.toNat) m.keys.cells
    (Int.le_refl 0) (m.curSize.toNat - 1) (by omega)
  rcases hrange with hidx | ⟨i, hi, hidx⟩
  · have hidx' : binarySearch m.keys.cells m.curSize.toNat k = -1 := hidx
    have hchecked : checkedDel m k = some m := by
      simp [checkedDel, hsearch, hidx']
    have hdel : arraymapDel h m k = some m := by
      simp [arraymapDel, hcells, hidx']
    exact .inside (fun hne => absurd hidx' hne) m hchecked hdel hm
  · have hidx' : binarySearch m.keys.cells m.curSize.toNat k = i := hidx
    have hfound : (i : ℤ) ≠ -1 := by omega
    have hturns : i + (m.curSize.toNat - i) = m.curSize.toNat := by omega
    have hchecked : checkedDel m k = (m.checkedShiftDown (m.curSize.toNat - i) i).bind fun m =>
        { m with curSize := m.curSize - 1 }.put (m.curSize - 1).toNat 0 0 := by
      simp only [checkedDel, hsearch, hidx', Option.bind_eq_bind, Option.bind_some, ne_eq, hfound,
        not_false_eq_true, if_true, Int.toNat_natCast]
    by_cases hroom : m.curSize.toNat < m.keys.words
    · have hdel := arraymapDel_found (hm.fits hm.cur_le) hi (hcells.trans hidx')
      have hshift := Arraymap.checkedShiftDown_eq (h := h) (n := m.curSize.toNat - i) (i := i)
        (m := m) (by rw [hturns]; exact hm.fits hroom)
      have hsame : checkedDel m k = arraymapDel h m k := by
        rw [hchecked, hshift]
        simp only [arraymapDel, hcells, hidx', Option.bind_eq_bind, ne_eq, hfound,
          not_false_eq_true, if_true, Int.toNat_natCast]
      refine .inside (fun _ => hroom) _ (hsame.trans hdel) hdel ⟨hm.same, ?_, hm.max⟩
      have hcur : m.curSize.toNat ≤ m.maxSize.toNat := hm.cur
      show m.curSize - 1 ≤ m.maxSize
      bv_omega
    · have hnone := Arraymap.checkedShiftDown_full (m := m) (n := m.curSize.toNat - i) (i := i)
        (by omega) (by omega)
      refine .outside (fun hfits => hroom (hfits ?_)) fun m' hm' => ?_
      · rw [hidx']
        exact hfound
      · rw [hchecked, hnone] at hm'
        cases hm'

theorem Inside.get (hm : Inside m) (h : Heap) (k : BitVec 32) :
    checkedGet m k = some (arraymapGet h m k) := by
  have hsearch : checkedBinarySearchLoop m.keys k 0 (m.curSize.toNat - 1) =
      some (binarySearch (m.key h) m.curSize.toNat k) :=
    checkedBinarySearchLoop_eq h.keysBehind (Int.le_refl 0) hm.search_lt
  have hrange := binarySearchLoop_range (k := k) (n := m.curSize.toNat) (m.key h) (Int.le_refl 0)
    (m.curSize.toNat - 1) (by omega)
  rw [checkedGet, hsearch, arraymapGet, Option.bind_eq_bind, Option.bind_some]
  rcases hrange with hidx | ⟨i, hi, hidx⟩
  · have hidx' : binarySearch (m.key h) m.curSize.toNat k = -1 := hidx
    rw [hidx']
    rfl
  · have hidx' : binarySearch (m.key h) m.curSize.toNat k = i := hidx
    have hfound : (i : ℤ) ≠ -1 := by omega
    have hlt : i < m.vals.words := Nat.lt_of_lt_of_le hi (hm.fits hm.cur_le).2
    rw [hidx', if_pos hfound, if_pos hfound, Int.toNat_natCast]
    exact checkedRead_of_lt h.valsBehind hlt

theorem Inside.applyChecked (hm : Inside m) (h : Heap) (op : Op) :
    CallOutcome (OpFits m op) (Store.applyChecked h m op) (applyOp h m op) := by
  cases op with
  | set k v => exact hm.set h k v
  | get k => exact .inside trivial m (by rw [Store.applyChecked, hm.get h k]; rfl) rfl hm
  | del k => exact hm.del h k

/-! ### Runs -/

/-- Every call of a run fits the table it finds. -/
def RunFits (m : Arraymap) : List (Heap × Op) → Prop
  | [] => True
  | (h, op) :: ops => OpFits m op ∧ ∀ m', applyOp h m op = some m' → RunFits m' ops

theorem Inside.staysInside_iff (hm : Inside m) (ops : List (Heap × Op)) :
    StaysInside m ops ↔ RunFits m ops := by
  induction ops generalizing m with
  | nil => exact Iff.rfl
  | cons hop ops ih =>
      obtain ⟨h, op⟩ := hop
      rw [StaysInside, RunFits]
      cases hm.applyChecked h op with
      | inside hfits m' hchecked hsame hin =>
          simp only [hchecked, hsame, Option.some.injEq, exists_eq_left', forall_eq', hfits,
            true_and, ih hin, and_iff_right hin.cur]
      | outside hfits hchecked =>
          refine iff_of_false ?_ fun h => hfits h.1
          rintro ⟨m', hm', hcur, -⟩
          exact hchecked m' hm' hcur

/-- A run that stays inside is the run of the unchecked operations. -/
theorem runOps_of_staysInside {ops : List (Heap × Op)} (hm : Inside m) (h : StaysInside m ops) :
    ∃ m', runOps m ops = some m' ∧ Inside m' := by
  induction ops generalizing m with
  | nil => exact ⟨m, rfl, hm⟩
  | cons hop ops ih =>
      obtain ⟨h', op⟩ := hop
      obtain ⟨m₁, hm₁, hcur, hrest⟩ := h
      cases hm.applyChecked h' op with
      | inside hfits m₂ hchecked hsame hin =>
          rw [hm₁] at hchecked
          cases hchecked
          obtain ⟨m', hm', hin'⟩ := ih hin hrest
          exact ⟨m', by rw [runOps, hsame]; exact hm', hin'⟩
      | outside hfits hchecked => exact absurd hcur (hchecked m₁ hm₁)

end

theorem arraymapNew_inside (h : Heap) (initialSize : ℕ) : Inside (arraymapNew h initialSize) := by
  have hwords : initialSize * 4 % 2 ^ 32 / 4 = initialSize % 2 ^ 30 := by omega
  refine ⟨rfl, ?_, ?_⟩
  · exact Nat.zero_le _
  · simp only [arraymapNew, ebpfMalloc, hwords, BitVec.toNat_ofNat]
    omega

/-- From `arraymap_new` on, all accesses are inside the blocks and `cur_size` is
`max_size` at most, exactly as long as every call fits the table it finds. -/
theorem arraymap_staysInside_iff (initialSize : ℕ) (h : Heap) (ops : List (Heap × Op)) :
    StaysInside (arraymapNew h initialSize) ops ↔ RunFits (arraymapNew h initialSize) ops :=
  (arraymapNew_inside h initialSize).staysInside_iff ops

theorem second_key_outside :
    ¬StaysInside (arraymapNew zeroHeap 1) [(zeroHeap, .set 5 1), (zeroHeap, .set 7 2)] := by
  rw [(arraymapNew_inside zeroHeap 1).staysInside_iff]
  rintro ⟨-, hrest⟩
  obtain ⟨hfits, -⟩ := hrest _ rfl
  have hone (arr : ℕ → BitVec 32) : lowerBound arr 1 7 = 1 := by
    rw [lowerBound, lowerBoundLoop, if_neg (by decide)]
  have hslot : lowerBound _ 1 7 < 1 := hfits.slot (by decide)
  rw [hone] at hslot
  exact absurd hslot (by decide)

end RapidPatch.Store
