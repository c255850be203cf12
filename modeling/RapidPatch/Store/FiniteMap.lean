import RapidPatch.Store.Arraymap

/-!
`arraymap` as a finite map.

`Valid` is what every operation in order keeps: the blocks are as long as
the sizes say and the keys in use represent a map. Each operation has one
lemma that says what it does to that map, and `Valid.runOps` follows a
whole sequence of operations by induction. Lookup and deletion need less than
`Valid` (`sorted_get_del`). In whatever order the keys come, the table holds no
values but those it was given (`arraymapSet_vals`), which is all that the patch
context asks of it.
-/

namespace RapidPatch.Store

open RapidPatch.Support

/-! ### The searches -/

section Search

variable {arr : ℕ → BitVec 32} {val : BitVec 32} {n : ℕ}

theorem binarySearchLoop_spec (hsorted : SortedTo arr n) (start stop : ℤ) (hstart : 0 ≤ start)
    (hstop : stop < n) (hlt : ∀ i < n, (i : ℤ) < start → arr i < val)
    (hgt : ∀ i < n, stop < (i : ℤ) → val < arr i) :
    (binarySearchLoop arr val start stop = -1 ∧ ∀ i < n, arr i ≠ val) ∨
      ∃ i < n, binarySearchLoop arr val start stop = i ∧ arr i = val := by
  fun_induction binarySearchLoop arr val start stop with
  | case1 start stop hle mid m heq =>
      right
      refine ⟨mid.toNat, by omega, by omega, heq⟩
  | case2 start stop hle mid m hne hlt' ih =>
      apply ih hstart (by omega) hlt
      intro i hi hmid
      rcases Nat.lt_or_ge mid.toNat i with h | h
      · have := hsorted mid.toNat i h hi
        exact BitVec.lt_trans hlt' this
      · have hi' : i = mid.toNat := by omega
        rw [hi']
        exact hlt'
  | case3 start stop hle mid m hne hge ih =>
      have hm : m < val := by bv_omega
      apply ih (by omega) hstop ?_ hgt
      intro i hi hmid
      rcases Nat.lt_or_ge i mid.toNat with h | h
      · exact BitVec.lt_trans (hsorted i mid.toNat h (by omega)) hm
      · have hi' : i = mid.toNat := by omega
        rw [hi']
        exact hm
  | case4 start stop hgt' =>
      left
      refine ⟨rfl, fun i hi heq => ?_⟩
      rcases Int.lt_or_le i start with h | h
      · exact Std.ne_of_lt (hlt i hi h) heq
      · exact Std.ne_of_lt (hgt i hi (by omega)) heq.symm

/-- On increasing keys the search finds a key that is there, and only that. -/
theorem binarySearch_spec (hsorted : SortedTo arr n) (val : BitVec 32) :
    (binarySearch arr n val = -1 ∧ ∀ i < n, arr i ≠ val) ∨
      ∃ i < n, binarySearch arr n val = i ∧ arr i = val := by
  apply binarySearchLoop_spec hsorted 0 (n - 1) (by omega) (by omega)
  · intro i _ h
    omega
  · intro i hi h
    omega

theorem lowerBoundLoop_le (arr : ℕ → BitVec 32) (val : BitVec 32) (start stop : ℕ) :
    lowerBoundLoop arr val start stop ≤ stop := by
  fun_induction lowerBoundLoop arr val start stop with
  | case1 start stop hlt mid hless ih => exact ih
  | case2 start stop hlt mid hless ih => exact Nat.le_trans ih (by omega)
  | case3 start stop hlt => exact Nat.le_refl stop

theorem lowerBoundLoop_spec (hsorted : SortedTo arr n) (start stop : ℕ) (hlt : start < stop)
    (hstop : stop ≤ n) (hstart : arr start < val)
    (hge : ∀ i, stop ≤ i → i < n → ¬arr i < val) :
    let r := lowerBoundLoop arr val start stop
    0 < r ∧ r ≤ n ∧ (∀ i < r, arr i < val) ∧ ∀ i, r ≤ i → i < n → ¬arr i < val := by
  fun_induction lowerBoundLoop arr val start stop with
  | case1 start stop h mid hmid ih => exact ih (by omega) hstop hmid hge
  | case2 start stop h mid hmid ih =>
      apply ih (by omega) (by omega) hstart
      intro i hi hin
      rcases Nat.lt_or_ge mid i with hlt' | hge'
      · have := hsorted mid i hlt' hin
        bv_omega
      · have hi' : i = mid := by omega
        rw [hi']
        exact hmid
  | case3 start stop h =>
      refine ⟨by omega, hstop, fun i hi => ?_, hge⟩
      rcases Nat.lt_or_ge i start with hlt' | hge'
      · exact BitVec.lt_trans (hsorted i start hlt' (by omega)) hstart
      · have hi' : i = start := by omega
        rw [hi']
        exact hstart

/-- With the first key below the target, `lower_bound` is what its comment
says: the first index not less than the target, or the tail. -/
theorem lowerBound_spec (hsorted : SortedTo arr n) (hn : 0 < n) (h0 : arr 0 < val) :
    let r := lowerBound arr n val
    0 < r ∧ r ≤ n ∧ (∀ i < r, arr i < val) ∧ ∀ i, r ≤ i → i < n → ¬arr i < val := by
  apply lowerBoundLoop_spec hsorted 0 n hn (Nat.le_refl n) h0
  intro i hi hin
  omega

end Search

/-! ### Moving slots -/

namespace Arraymap

/-- Both blocks have room for `n` slots. -/
def Fits (m : Arraymap) (n : ℕ) : Prop := n ≤ m.keys.words ∧ n ≤ m.vals.words

/-- The cells after the slots above `p`, up to `n`, were moved up by one. -/
def movedUp (p n : ℕ) (g : ℕ → BitVec 32) : ℕ → BitVec 32 := fun j =>
  if p < j ∧ j ≤ n then g (j - 1) else g j

/-- The cells of a block after the slots from `p` on, below `n`, were moved
down by one. -/
def movedDown (p n : ℕ) (b : Block) (behind : ℕ → BitVec 32) : ℕ → BitVec 32 := fun j =>
  if p ≤ j ∧ j < n then b.read behind (j + 1) else b.cells j

def withCells (m : Arraymap) (keys vals : ℕ → BitVec 32) : Arraymap :=
  { m with keys := { m.keys with cells := keys }, vals := { m.vals with cells := vals } }

variable {m : Arraymap} {h : Heap} {n n' i : ℕ}

theorem Fits.mono (hfit : m.Fits n) (hle : n' ≤ n) : m.Fits n' :=
  ⟨Nat.le_trans hle hfit.1, Nat.le_trans hle hfit.2⟩

theorem key_eq (hfit : m.Fits n) (hi : i < n) : m.key h i = m.keys.cells i := by
  have := hfit.1
  simp only [key, Block.read, show i < m.keys.words by omega, if_true]

theorem val_eq (hfit : m.Fits n) (hi : i < n) : m.val h i = m.vals.cells i := by
  have := hfit.2
  simp only [val, Block.read, show i < m.vals.words by omega, if_true]

theorem put_eq (hfit : m.Fits n) (hi : i < n) (k v : BitVec 32) :
    m.put i k v = some (m.withCells (Function.update m.keys.cells i k)
      (Function.update m.vals.cells i v)) := by
  have hk : i < m.keys.words := Nat.lt_of_lt_of_le hi hfit.1
  have hv : i < m.vals.words := Nat.lt_of_lt_of_le hi hfit.2
  simp [put, Block.write, hk, hv, withCells]

/-- The insertion loop, slot by slot: everything from `insert` to `i` has
moved up by one. -/
theorem shiftUp_eq (insert i : ℕ) (hfit : m.Fits (i + 1)) :
    m.shiftUp h insert i = some (m.withCells (movedUp insert i m.keys.cells)
      (movedUp insert i m.vals.cells)) := by
  unfold movedUp
  induction i generalizing m with
  | zero =>
      have hno (j : ℕ) : ¬(insert < j ∧ j ≤ 0) := by omega
      simp only [shiftUp, hno, if_false, withCells]
  | succ i ih =>
      unfold shiftUp
      by_cases hlt : insert < i + 1
      · rw [if_pos hlt, key_eq hfit (by omega), val_eq hfit (by omega),
          put_eq hfit (by omega)]
        -- the slot just written is the last of the range; the rest is the induction's
        have hfit' : (m.withCells (Function.update m.keys.cells (i + 1) (m.keys.cells i))
            (Function.update m.vals.cells (i + 1) (m.vals.cells i))).Fits (i + 1) :=
          Fits.mono hfit (Nat.le_succ _)
        show shiftUp h insert i _ = _
        rw [ih hfit']
        congr 1
        have cell (f : ℕ → BitVec 32) (j : ℕ) :
            (if insert < j ∧ j ≤ i then Function.update f (i + 1) (f i) (j - 1)
              else Function.update f (i + 1) (f i) j) =
              if insert < j ∧ j ≤ i + 1 then f (j - 1) else f j := by
          by_cases hj : j = i + 1
          · rw [hj, if_neg (by omega), if_pos (by omega), Function.update_self]
            rfl
          · by_cases hin : insert < j ∧ j ≤ i
            · rw [if_pos hin, if_pos (by omega), Function.update_of_ne (by omega)]
            · rw [if_neg hin, if_neg (by omega), Function.update_of_ne hj]
        simp only [withCells, cell]
      · rw [if_neg hlt]
        have hno (j : ℕ) : ¬(insert < j ∧ j ≤ i + 1) := by omega
        simp only [hno, if_false, withCells]

/-- The deletion loop, slot by slot. The last slot read may lie behind the
blocks. -/
theorem shiftDown_eq (n i : ℕ) (hfit : m.Fits (i + n)) :
    m.shiftDown h n i = some (m.withCells (movedDown i (i + n) m.keys h.keysBehind)
      (movedDown i (i + n) m.vals h.valsBehind)) := by
  unfold movedDown
  induction n generalizing m i with
  | zero =>
      have hno (j : ℕ) : ¬(i ≤ j ∧ j < i + 0) := by omega
      simp only [shiftDown, hno, if_false, withCells]
  | succ n ih =>
      unfold shiftDown
      rw [put_eq hfit (by omega)]
      have hfit' : (m.withCells (Function.update m.keys.cells i (m.key h (i + 1)))
          (Function.update m.vals.cells i (m.val h (i + 1)))).Fits (i + 1 + n) := by
        have := hfit.1
        have := hfit.2
        constructor <;> simp only [withCells] <;> omega
      show shiftDown h n (i + 1) _ = _
      rw [ih (i + 1) hfit']
      congr 1
      -- a slot above `i` is read as it was before slot `i` was overwritten
      have later (b : Block) (behind : ℕ → BitVec 32) (v : BitVec 32) (j : ℕ) (hj : i ≤ j) :
          ({ b with cells := Function.update b.cells i v } : Block).read behind (j + 1) =
            b.read behind (j + 1) := by
        simp only [Block.read]
        rw [Function.update_of_ne (by omega)]
      have cell (b : Block) (behind : ℕ → BitVec 32) (j : ℕ) :
          (if i + 1 ≤ j ∧ j < i + 1 + n then
              ({ b with cells := Function.update b.cells i (b.read behind (i + 1)) } :
                Block).read behind (j + 1)
            else Function.update b.cells i (b.read behind (i + 1)) j) =
            if i ≤ j ∧ j < i + (n + 1) then b.read behind (j + 1) else b.cells j := by
        rcases Nat.lt_trichotomy j i with hj | hj | hj
        · rw [if_neg (by omega), if_neg (by omega), Function.update_of_ne (by omega)]
        · rw [hj, if_neg (by omega), if_pos (by omega), Function.update_self]
        · rw [later b behind _ j (by omega), Function.update_of_ne (by omega)]
          congr 1
          apply propext
          omega
      have hk := cell m.keys h.keysBehind
      have hv := cell m.vals h.valsBehind
      simp only [withCells, key, val, hk, hv]

end Arraymap

/-! ### Operations on a valid table -/

/-- The blocks are as long as the sizes say, and the slots in use hold `f`. -/
structure Valid (m : Arraymap) (f : BitVec 32 → Option (BitVec 32)) : Prop where
  fitsOne : m.Fits 1
  fitsCur : m.Fits m.curSize.toNat
  fitsMax : m.Fits m.maxSize.toNat
  represents : Represents m.keys.cells m.vals.cells m.curSize.toNat f

/-- The state before an insertion meets none of the three traps: the key is
above the first one, it is not above all keys and equal to the slot behind
them, and the sizes do not wrap. -/
structure SetInOrder (h : Heap) (m : Arraymap) (key : BitVec 32) : Prop where
  first : m.key h 0 < key
  stale : ¬((∀ i < m.curSize.toNat, m.key h i < key) ∧ m.key h m.curSize.toNat = key)
  room : (∀ i < m.curSize.toNat, m.key h i ≠ key) → m.curSize.toNat < 0xffff ∧
    (m.maxSize ≤ m.curSize → m.curSize.toNat ≤ m.maxSize.toNat + 2)

section Operations

open Arraymap (movedUp movedDown)

variable {h : Heap} {m : Arraymap} {f : BitVec 32 → Option (BitVec 32)} {k v : BitVec 32}

theorem Valid.sorted (hm : Valid m f) (h : Heap) : SortedTo (m.key h) m.curSize.toNat :=
  hm.represents.sorted.congr fun _ hi => Arraymap.key_eq hm.fitsCur hi

theorem ebpfRealloc_grow (b : Block) (behind fresh : ℕ → BitVec 32) {n : ℕ} (hn : n < 2 ^ 16) :
    ebpfRealloc b behind fresh (sizeofDarray + n * 4) ((n + mapGrow) * 4) =
      { cells := fun i => if i < n + 2 then b.read behind i else fresh i, words := n + 4 } := by
  have hgrow : mapGrow = 4 := rfl
  have hdarray : sizeofDarray = 8 := rfl
  have hwords : (n + mapGrow) * 4 % 2 ^ 32 / 4 = n + 4 := by omega
  have hcopied : (sizeofDarray + n * 4) / 4 = n + 2 := by omega
  unfold ebpfRealloc
  rw [if_neg (by omega), if_neg (by omega), hcopied, hwords]

/-- The blocks are long enough for the slots in use, and the sizes do not wrap. -/
structure Room (m : Arraymap) : Prop where
  fitsCur : m.Fits m.curSize.toNat
  fitsMax : m.Fits m.maxSize.toNat
  size : m.curSize.toNat < 0xffff
  grows : m.maxSize ≤ m.curSize → m.curSize.toNat ≤ m.maxSize.toNat + 2

/-- The table in which an insertion moves the slots: it has room for one more,
and the slots in use are what they were. -/
theorem Room.grown (hm : Room m) : ∃ w, (if m.maxSize ≤ m.curSize then m.grow h else m) = w ∧
    w.Fits (m.curSize.toNat + 1) ∧ w.Fits w.maxSize.toNat ∧ w.curSize = m.curSize ∧
    (∀ i < m.curSize.toNat, w.keys.cells i = m.keys.cells i) ∧
    ∀ i < m.curSize.toNat, w.vals.cells i = m.vals.cells i := by
  by_cases hle : m.maxSize ≤ m.curSize
  · have hcur := hm.grows hle
    have realloc (b : Block) (behind fresh : ℕ → BitVec 32) :=
      ebpfRealloc_grow b behind fresh m.maxSize.isLt
    have hfits : (m.grow h).Fits (m.maxSize.toNat + 4) := by
      constructor <;> simp only [Arraymap.grow, realloc] <;> exact Nat.le_refl _
    have hmax : (m.grow h).maxSize.toNat ≤ m.maxSize.toNat + 4 := by
      simp only [Arraymap.grow, BitVec.toNat_ofNat]
      exact Nat.mod_le _ _
    refine ⟨m.grow h, if_pos hle, hfits.mono (by omega), hfits.mono hmax, rfl, ?_, ?_⟩
    · intro i hi
      simp only [Arraymap.grow, realloc, show i < m.maxSize.toNat + 2 by omega, if_true]
      exact Arraymap.key_eq (h := h) hm.fitsCur hi
    · intro i hi
      simp only [Arraymap.grow, realloc, show i < m.maxSize.toNat + 2 by omega, if_true]
      exact Arraymap.val_eq (h := h) hm.fitsCur hi
  · have hlt : m.curSize.toNat < m.maxSize.toNat := Nat.lt_of_not_le hle
    exact ⟨m, if_neg hle, hm.fitsMax.mono hlt, hm.fitsMax, rfl, fun _ _ => rfl, fun _ _ => rfl⟩

/-- Moving the slots from `p` on and writing slot `p` inserts the key there. -/
theorem Valid.insert (hm : Valid m f) (hfit : m.Fits (m.curSize.toNat + 1))
    (hsize : m.curSize.toNat < 0xffff) {p : ℕ} (hp : p ≤ m.curSize.toNat)
    (hlt : ∀ i < p, m.keys.cells i < k)
    (hgt : ∀ i, p ≤ i → i < m.curSize.toNat → k < m.keys.cells i) :
    ∃ m₁ m₂, m.shiftUp h p m.curSize.toNat = some m₁ ∧ m₁.put p k v = some m₂ ∧
      m₂.curSize = m.curSize ∧
      Valid { m₂ with curSize := m₂.curSize + 1 } (Function.update f k (some v)) := by
  have hcur : (m.curSize + 1).toNat = m.curSize.toNat + 1 := by bv_omega
  have h₁ := Arraymap.shiftUp_eq (m := m) (h := h) p _ hfit
  have h₂ := Arraymap.put_eq
    (m := m.withCells (movedUp p m.curSize.toNat m.keys.cells)
      (movedUp p m.curSize.toNat m.vals.cells))
    hfit (Nat.lt_succ_of_le hp) k v
  refine ⟨_, _, h₁, h₂, rfl, ?_⟩
  -- the cells after both, compared with the gap that `insertAt` opens
  have cell (g : ℕ → BitVec 32) (x : BitVec 32) (j : ℕ) (hj : j < m.curSize.toNat + 1) :
      Function.update (movedUp p m.curSize.toNat g) p x j = insertAt g p x j := by
    unfold insertAt movedUp
    rcases Nat.lt_trichotomy j p with hjp | hjp | hjp
    · rw [Function.update_of_ne (by omega), if_neg (by omega), if_pos hjp]
    · rw [hjp, Function.update_self, if_neg (by omega), if_pos rfl]
    · rw [Function.update_of_ne (by omega), if_pos (by omega), if_neg (by omega),
        if_neg (by omega)]
  constructor
  · exact hm.fitsOne
  · show m.Fits (m.curSize + 1).toNat
    rw [hcur]
    exact hfit
  · exact hm.fitsMax
  · show Represents _ _ (m.curSize + 1).toNat _
    rw [hcur]
    exact (hm.represents.insertAt hp v hlt hgt).congr (fun i hi => cell _ _ i hi)
      fun i hi => cell _ _ i hi

theorem Valid.set_empty (hm : Valid m f) (hzero : m.curSize = 0) :
    ∃ m', arraymapSet h m k v = some m' ∧ Valid m'.1 (Function.update f k (some v)) := by
  have hn : m.curSize.toNat = 0 := by
    rw [hzero]
    rfl
  obtain ⟨m₁, m₂, h₁, h₂, _, hvalid⟩ := hm.insert (h := h) (k := k) (v := v) (p := 0)
    (by rw [hn]; exact hm.fitsOne) (by omega) (Nat.zero_le _)
    (fun i hi => absurd hi (Nat.not_lt_zero i)) (fun i _ hi => by omega)
  -- with no slot in use the loop does nothing
  rw [hn] at h₁
  cases h₁
  refine ⟨({ m₂ with curSize := m₂.curSize + 1 }, some 0), ?_, hvalid⟩
  simp only [arraymapSet, hzero, if_true, h₂]
  rfl

/-- An insertion in order updates the map. -/
theorem Valid.set (hm : Valid m f) (hne : m.curSize ≠ 0) (hin : SetInOrder h m k) :
    ∃ m', arraymapSet h m k v = some m' ∧ Valid m'.1 (Function.update f k (some v)) := by
  have hpos : 0 < m.curSize.toNat := by
    rcases Nat.eq_zero_or_pos m.curSize.toNat with h0 | h0
    · exact absurd (BitVec.eq_of_toNat_eq h0) hne
    · exact h0
  obtain ⟨_, hr, hlt, hge⟩ := lowerBound_spec (hm.sorted h) hpos hin.first
  have hkey (i : ℕ) (hi : i < m.curSize.toNat) : m.key h i = m.keys.cells i :=
    Arraymap.key_eq hm.fitsCur hi
  unfold arraymapSet
  rw [if_neg hne]
  generalize lowerBound (m.key h) m.curSize.toNat k = r at hr hlt hge ⊢
  by_cases heq : m.key h r = k
  · -- an update: the slot is one of those in use
    have hrn : r < m.curSize.toNat := by
      rcases Nat.lt_or_ge r m.curSize.toNat with hlt' | hge'
      · exact hlt'
      · have hrn : r = m.curSize.toNat := by omega
        exact absurd ⟨fun i hi => hlt i (by omega), hrn ▸ heq⟩ hin.stale
    have hw : r < m.vals.words := Nat.lt_of_lt_of_le hrn hm.fitsCur.2
    refine ⟨({ m with vals := { m.vals with cells := Function.update m.vals.cells r v } }, none),
      ?_, ?_⟩
    · simp [heq, Block.write, hw]
    · rw [← heq, hkey r hrn]
      exact ⟨hm.fitsOne, hm.fitsCur, hm.fitsMax, hm.represents.update hrn v⟩
  · -- an insertion: no slot in use has the key
    have hgt (i : ℕ) (hi : r ≤ i) (hin' : i < m.curSize.toNat) : k < m.key h i := by
      rcases Nat.lt_or_ge r i with hlt' | hge'
      · have h₁ := hge r (Nat.le_refl r) (by omega)
        have h₂ := hm.sorted h r i hlt' hin'
        bv_omega
      · have hir : i = r := by omega
        have h₁ := hge i hi hin'
        rw [hir] at h₁ ⊢
        bv_omega
    have habsent (i : ℕ) (hi : i < m.curSize.toNat) : m.key h i ≠ k := by
      rcases Nat.lt_or_ge i r with hlt' | hge'
      · exact Std.ne_of_lt (hlt i hlt')
      · exact (Std.ne_of_lt (hgt i hge' hi)).symm
    obtain ⟨hsize, hgrow⟩ := hin.room habsent
    have hroom : Room m := ⟨hm.fitsCur, hm.fitsMax, hsize, hgrow⟩
    -- the table the slots are moved in
    obtain ⟨w, hw, hwfit, hwmax, hwcur, hwkeys, hwvals⟩ := hroom.grown (h := h)
    have hwv : Valid w f := by
      refine ⟨hwfit.mono (by omega), ?_, hwmax, ?_⟩
      · rw [hwcur]
        exact hwfit.mono (Nat.le_succ _)
      · rw [hwcur]
        exact hm.represents.congr hwkeys hwvals
    obtain ⟨m₁, m₂, h₁, h₂, _, hvalid⟩ := hwv.insert (h := h) (k := k) (v := v) (p := r)
      (by rw [hwcur]; exact hwfit) (by rw [hwcur]; exact hsize) (by rw [hwcur]; exact hr)
      (fun i hi => by
        rw [hwkeys i (by omega), ← hkey i (by omega)]
        exact hlt i hi)
      (fun i hi hi' => by
        rw [hwcur] at hi'
        rw [hwkeys i hi', ← hkey i hi']
        exact hgt i hi hi')
    refine ⟨({ m₂ with curSize := m₂.curSize + 1 }, some r), ?_, hvalid⟩
    simp only [heq, if_false, hw, h₁, Option.bind_eq_bind, Option.bind_some, h₂]
    rfl

/-- In whatever order the keys come, the values in use after `arraymap_set` are the
new one and old ones. -/
theorem arraymapSet_vals {m' : Arraymap} {r : Option ℕ} (hm : Room m)
    (hset : arraymapSet h m k v = some (m', r)) {i : ℕ} (hi : i < m'.curSize.toNat) :
    m'.vals.cells i = v ∨ ∃ j < m.curSize.toNat, m'.vals.cells i = m.vals.cells j := by
  have hcur : (m.curSize + 1).toNat = m.curSize.toNat + 1 := by
    have := hm.size
    bv_omega
  unfold arraymapSet at hset
  by_cases hzero : m.curSize = 0
  · rw [if_pos hzero] at hset
    obtain ⟨m₁, hput, hset⟩ := Option.bind_eq_some_iff.mp hset
    simp only [Arraymap.put, Option.bind_eq_bind, Option.bind_eq_some_iff, Block.write] at hput
    obtain ⟨keys, -, vals, hvals, hm₁⟩ := hput
    cases hm₁
    cases hset
    split at hvals
    · cases hvals
      have hone : (m.curSize + 1).toNat = 1 := by rw [hzero]; rfl
      obtain rfl : i = 0 := by
        have hi' : i < (m.curSize + 1).toNat := hi
        omega
      left
      show Function.update m.vals.cells 0 v 0 = v
      exact Function.update_self ..
    · cases hvals
  · rw [if_neg hzero] at hset
    have hr : lowerBound (m.key h) m.curSize.toNat k ≤ m.curSize.toNat :=
      lowerBoundLoop_le (m.key h) k 0 m.curSize.toNat
    generalize lowerBound (m.key h) m.curSize.toNat k = slot at hr hset
    dsimp only at hset
    split at hset
    · simp only [Option.bind_eq_bind, Option.bind_eq_some_iff, Block.write] at hset
      obtain ⟨vals, hvals, hset⟩ := hset
      cases hset
      split at hvals
      · cases hvals
        rcases eq_or_ne i slot with rfl | hne
        · exact .inl (Function.update_self ..)
        · exact .inr ⟨i, hi, Function.update_of_ne hne ..⟩
      · cases hvals
    · obtain ⟨w, hw, hfit, -, hwcur, -, hsame⟩ := hm.grown (h := h)
      rw [hw, hwcur, Arraymap.shiftUp_eq slot _ hfit] at hset
      simp only [Option.bind_eq_bind, Option.bind_some] at hset
      have hput := Arraymap.put_eq
        (m := w.withCells (movedUp slot m.curSize.toNat w.keys.cells)
          (movedUp slot m.curSize.toNat w.vals.cells))
        hfit (Nat.lt_succ_of_le hr) k v
      rw [hput] at hset
      cases hset
      have hlt : i < m.curSize.toNat + 1 := by
        rw [← hcur, ← hwcur]
        exact hi
      show Function.update (movedUp slot m.curSize.toNat w.vals.cells) slot v i = v ∨
        ∃ j < m.curSize.toNat,
          Function.update (movedUp slot m.curSize.toNat w.vals.cells) slot v i = m.vals.cells j
      unfold movedUp
      rcases Nat.lt_trichotomy i slot with hlow | rfl | hhigh
      · right
        refine ⟨i, by omega, ?_⟩
        rw [Function.update_of_ne (by omega), if_neg (by omega)]
        exact hsame i (by omega)
      · exact .inl (Function.update_self ..)
      · right
        refine ⟨i - 1, by omega, ?_⟩
        rw [Function.update_of_ne (by omega), if_pos (by omega)]
        exact hsame (i - 1) (by omega)

/-- The search finds nothing if the map has nothing for the key, and otherwise
the slot of its value. -/
theorem Valid.binarySearch (hm : Valid m f) (h : Heap) (k : BitVec 32) :
    (Store.binarySearch (m.key h) m.curSize.toNat k = -1 ∧ f k = none) ∨
      ∃ i < m.curSize.toNat, Store.binarySearch (m.key h) m.curSize.toNat k = i ∧
        m.keys.cells i = k := by
  rcases binarySearch_spec (hm.sorted h) k with ⟨hidx, hno⟩ | ⟨i, hi, hidx, hk⟩
  · left
    refine ⟨hidx, ?_⟩
    apply hm.represents.absent
    intro i hi
    rw [← Arraymap.key_eq (h := h) hm.fitsCur hi]
    exact hno i hi
  · right
    refine ⟨i, hi, hidx, ?_⟩
    rw [← Arraymap.key_eq (h := h) hm.fitsCur hi]
    exact hk

theorem Valid.get (hm : Valid m f) (h : Heap) (k : BitVec 32) :
    arraymapGet h m k = (f k).getD 0 := by
  unfold arraymapGet
  rcases hm.binarySearch h k with ⟨hidx, hnone⟩ | ⟨i, hi, hidx, hk⟩
  · simp [hidx, hnone]
  · have hsome : f k = some (m.vals.cells i) := by
      rw [← hk]
      exact hm.represents.entry i hi
    have hval : m.val h i = m.vals.cells i := Arraymap.val_eq hm.fitsCur hi
    simp [hidx, hsome, hval]

/-- The cells of a block after the deletion of slot `i` of `n`: the gap is
closed, and what the last turn read behind the slots in use is overwritten. -/
def deleted (i n : ℕ) (b : Block) (behind : ℕ → BitVec 32) : ℕ → BitVec 32 :=
  Function.update (movedDown i n b behind) (n - 1) 0

theorem deleted_lt (b : Block) (behind : ℕ → BitVec 32) {i n j : ℕ} (hb : n ≤ b.words)
    (hj : j < n - 1) : deleted i n b behind j = removeAt b.cells i j := by
  rw [deleted, Function.update_of_ne (by omega)]
  unfold removeAt movedDown
  by_cases hji : j < i
  · rw [if_neg (by omega), if_pos hji]
  · rw [if_pos (by omega), if_neg hji]
    simp only [Block.read, show j + 1 < b.words by omega, if_true]

/-- A slot in use after the deletion holds what was in it, or in the next one. -/
theorem read_deleted (b : Block) (behind behind' : ℕ → BitVec 32) {i n j : ℕ} (hb : n ≤ b.words)
    (hj : j < n - 1) :
    ({ b with cells := deleted i n b behind } : Block).read behind' j =
      removeAt (b.read behind) i j := by
  have hlt : j < b.words ∧ j + 1 < b.words := by omega
  simp only [Block.read, hlt, if_true, deleted_lt b behind hb hj, removeAt]

/-- The table after the deletion of slot `i`. -/
def Arraymap.without (m : Arraymap) (h : Heap) (i : ℕ) : Arraymap :=
  { m.withCells (deleted i m.curSize.toNat m.keys h.keysBehind)
      (deleted i m.curSize.toNat m.vals h.valsBehind) with curSize := m.curSize - 1 }

/-- Deletion of the key that the search found in slot `i`. -/
theorem arraymapDel_found (hfit : m.Fits m.curSize.toNat) {i : ℕ} (hi : i < m.curSize.toNat)
    (hidx : Store.binarySearch (m.key h) m.curSize.toNat k = i) :
    arraymapDel h m k = some (m.without h i) := by
  have hi' : i + (m.curSize.toNat - i) = m.curSize.toNat := by omega
  have hcur : (m.curSize - 1).toNat = m.curSize.toNat - 1 := by bv_omega
  have hdown := Arraymap.shiftDown_eq (m := m) (h := h) (m.curSize.toNat - i) i
    (by rw [hi']; exact hfit)
  rw [hi'] at hdown
  have hput := Arraymap.put_eq
    (m := { m.withCells (movedDown i m.curSize.toNat m.keys h.keysBehind)
      (movedDown i m.curSize.toNat m.vals h.valsBehind) with curSize := m.curSize - 1 })
    (n := m.curSize.toNat) (i := (m.curSize - 1).toNat) hfit (by omega) 0 0
  have hfound : (i : ℤ) ≠ -1 := by omega
  simp only [arraymapDel, hidx, hfound, ne_eq, not_false_eq_true, if_true, Int.toNat_natCast,
    hdown, Option.bind_eq_bind, Option.bind_some]
  simp only [Arraymap.without, deleted, ← hcur]
  exact hput

theorem Valid.del (hm : Valid m f) (h : Heap) (k : BitVec 32) :
    ∃ m', arraymapDel h m k = some m' ∧ Valid m' (Function.update f k none) := by
  rcases hm.binarySearch h k with ⟨hidx, hnone⟩ | ⟨i, hi, hidx, hk⟩
  · refine ⟨m, by simp [arraymapDel, hidx], ?_⟩
    rw [← hnone, Function.update_eq_self]
    exact hm
  · have hcur : (m.curSize - 1).toNat = m.curSize.toNat - 1 := by bv_omega
    have hrep := (hm.represents.removeAt hi).congr
      (fun j hj => deleted_lt m.keys h.keysBehind hm.fitsCur.1 hj)
      fun j hj => deleted_lt m.vals h.valsBehind hm.fitsCur.2 hj
    rw [hk, ← hcur] at hrep
    refine ⟨m.without h i, arraymapDel_found hm.fitsCur hi hidx, hm.fitsOne, ?_, hm.fitsMax, hrep⟩
    show m.Fits (m.curSize - 1).toNat
    exact hm.fitsCur.mono (by omega)

end Operations

/-! ### Any table with increasing keys -/

section Sorted

variable {h : Heap} {m : Arraymap} {k v : BitVec 32} {i : ℕ}

/-- The key and the value are in one of the slots in use. -/
def HasEntry (h : Heap) (m : Arraymap) (k v : BitVec 32) : Prop :=
  ∃ i < m.curSize.toNat, m.key h i = k ∧ m.val h i = v

theorem without_curSize (hi : i < m.curSize.toNat) :
    (m.without h i).curSize.toNat = m.curSize.toNat - 1 := by
  show (m.curSize - 1).toNat = _
  bv_omega

theorem without_sorted (hfit : m.Fits m.curSize.toNat)
    (hsorted : SortedTo (m.key h) m.curSize.toNat) (hi : i < m.curSize.toNat) :
    SortedTo ((m.without h i).key h) (m.without h i).curSize.toNat := by
  rw [without_curSize hi]
  exact hsorted.removeAt.congr fun j hj => read_deleted m.keys _ _ hfit.1 hj

theorem hasEntry_without (hfit : m.Fits m.curSize.toNat)
    (hsorted : SortedTo (m.key h) m.curSize.toNat) (hi : i < m.curSize.toNat) :
    HasEntry h (m.without h i) k v ↔ HasEntry h m k v ∧ k ≠ m.key h i := by
  rw [HasEntry, without_curSize hi, HasEntry, ← hsorted.exists_removeAt_iff hi]
  refine exists_congr fun j => and_congr_right fun hj => and_congr ?_ ?_
  · exact iff_of_eq (congrArg (· = k) (read_deleted m.keys _ _ hfit.1 hj))
  · exact iff_of_eq (congrArg (· = v) (read_deleted m.vals _ _ hfit.2 hj))

/-- What a deletion of `k` leaves of a table. -/
structure Deletes (h : Heap) (m : Arraymap) (k : BitVec 32) (m' : Arraymap) : Prop where
  sorted : SortedTo (m'.key h) m'.curSize.toNat
  entries : ∀ k' v, HasEntry h m' k' v ↔ HasEntry h m k' v ∧ k' ≠ k
  present : (∃ i < m.curSize.toNat, m.key h i = k) → m'.curSize.toNat + 1 = m.curSize.toNat
  absent : (∀ i < m.curSize.toNat, m.key h i ≠ k) → m' = m

/-- Whatever is behind the slots in use, lookup gives the value of a key that
is there and `NULL` for any other, and deletion takes out that key alone. -/
theorem sorted_get_del (h : Heap) (m : Arraymap) (k : BitVec 32)
    (hfit : m.Fits m.curSize.toNat) (hsorted : SortedTo (m.key h) m.curSize.toNat) :
    (∀ i < m.curSize.toNat, m.key h i = k → arraymapGet h m k = m.val h i) ∧
      ((∀ i < m.curSize.toNat, m.key h i ≠ k) → arraymapGet h m k = 0) ∧
      ∃ m', arraymapDel h m k = some m' ∧ Deletes h m k m' := by
  rcases binarySearch_spec hsorted k with ⟨hidx, hno⟩ | ⟨i, hi, hidx, hk⟩
  · have hget : arraymapGet h m k = 0 := by simp [arraymapGet, hidx]
    refine ⟨fun i hi hk => absurd hk (hno i hi), fun _ => hget, m, by simp [arraymapDel, hidx],
      hsorted, fun k' v => ?_, fun ⟨i, hi, hk⟩ => absurd hk (hno i hi), fun _ => rfl⟩
    refine (and_iff_left_of_imp ?_).symm
    rintro ⟨i, hi, rfl, -⟩
    exact hno i hi
  · refine ⟨fun j hj hjk => ?_, fun hno => absurd hk (hno i hi), m.without h i,
      arraymapDel_found hfit hi hidx, without_sorted hfit hsorted hi, fun k' v => ?_, fun _ => ?_,
      fun hno => absurd hk (hno i hi)⟩
    · have hij : i = j := hsorted.injective hi hj (hk.trans hjk.symm)
      have hfound : (i : ℤ) ≠ -1 := by omega
      rw [arraymapGet, hidx, if_pos hfound, Int.toNat_natCast, hij]
    · rw [← hk]
      exact hasEntry_without hfit hsorted hi
    · rw [without_curSize hi]
      omega

/-- A full table of two slots, with keys on both sides of `2 ^ 31`. -/
def fullTable : Arraymap where
  maxSize := 2
  curSize := 2
  keys := { cells := fun i => if i = 0 then 7 else 0x80000001, words := 2 }
  vals := { cells := fun i => if i = 0 then 1 else 2, words := 2 }

/-- Memory that is `0x80000001` wherever it is not the table's. -/
def noisyHeap : Heap where
  keysBehind := fun _ => 0x80000001
  valsBehind := fun _ => 3
  keysFresh := fun _ => 0x80000001
  valsFresh := fun _ => 3

theorem fullTable_get_del :
    arraymapGet noisyHeap fullTable 0x80000001 = 2 ∧
      ∃ m', arraymapDel noisyHeap fullTable 7 = some m' ∧ Deletes noisyHeap fullTable 7 m' := by
  have hfit : fullTable.Fits fullTable.curSize.toNat := ⟨by decide, by decide⟩
  have hsorted : SortedTo (fullTable.key noisyHeap) fullTable.curSize.toNat := by
    intro i j hij hj
    have hj2 : j < 2 := hj
    obtain rfl : i = 0 := by omega
    obtain rfl : j = 1 := by omega
    decide
  exact ⟨(sorted_get_del noisyHeap fullTable 0x80000001 hfit hsorted).1 1 (by decide) (by decide),
    (sorted_get_del noisyHeap fullTable 7 hfit hsorted).2.2⟩

end Sorted

/-! ### Sequences of operations -/

inductive Op
  | set (key val : BitVec 32)
  | get (key : BitVec 32)
  | del (key : BitVec 32)
  deriving DecidableEq, Repr

def applyOp (h : Heap) (m : Arraymap) : Op → Option Arraymap
  | .set key val => (arraymapSet h m key val).map Prod.fst
  | .get _ => some m
  | .del key => arraymapDel h m key

def runOps (m : Arraymap) : List (Heap × Op) → Option Arraymap
  | [] => some m
  | (h, op) :: ops => (applyOp h m op).bind fun m' => runOps m' ops

/-- Every insertion of the sequence starts from a state in order. -/
def RunInOrder (m : Arraymap) : List (Heap × Op) → Prop
  | [] => True
  | (h, op) :: ops =>
      (∀ key val, op = .set key val → m.curSize ≠ 0 → SetInOrder h m key) ∧
        ∀ m', applyOp h m op = some m' → RunInOrder m' ops

/-- The abstract table: the value of the latest `set` of each key that no
`del` of the key followed. -/
def record (f : BitVec 32 → Option (BitVec 32)) : Op → BitVec 32 → Option (BitVec 32)
  | .set key val => Function.update f key (some val)
  | .get _ => f
  | .del key => Function.update f key none

theorem Valid.applyOp {h : Heap} {m : Arraymap} {f : BitVec 32 → Option (BitVec 32)} {op : Op}
    (hm : Valid m f)
    (hin : ∀ key val, op = .set key val → m.curSize ≠ 0 → SetInOrder h m key) :
    ∃ m', Store.applyOp h m op = some m' ∧ Valid m' (record f op) := by
  cases op with
  | set key val =>
      have hset : ∃ m', arraymapSet h m key val = some m' ∧
          Valid m'.1 (Function.update f key (some val)) := by
        by_cases hzero : m.curSize = 0
        · exact hm.set_empty hzero
        · exact hm.set hzero (hin key val rfl hzero)
      obtain ⟨m', h', hv⟩ := hset
      exact ⟨m'.1, by simp [Store.applyOp, h'], hv⟩
  | get key => exact ⟨m, rfl, hm⟩
  | del key => exact hm.del h key

theorem Valid.runOps {m : Arraymap} {f : BitVec 32 → Option (BitVec 32)}
    {ops : List (Heap × Op)} (hm : Valid m f) (hrun : RunInOrder m ops) :
    ∃ m', Store.runOps m ops = some m' ∧ Valid m' ((ops.map Prod.snd).foldl record f) := by
  induction ops generalizing m f with
  | nil => exact ⟨m, rfl, hm⟩
  | cons hop ops ih =>
      obtain ⟨h, op⟩ := hop
      obtain ⟨m₁, h₁, hv⟩ := hm.applyOp hrun.1
      obtain ⟨m₂, h₂, hv₂⟩ := ih hv (hrun.2 m₁ h₁)
      exact ⟨m₂, by simp [Store.runOps, h₁, h₂], hv₂⟩

theorem arraymapNew_valid (h : Heap) {initialSize : ℕ} (hsize : initialSize % 2 ^ 30 ≠ 0) :
    Valid (arraymapNew h initialSize) fun _ => none := by
  have hwords : initialSize * 4 % 2 ^ 32 / 4 = initialSize % 2 ^ 30 := by omega
  have hfits (n : ℕ) (hn : n ≤ initialSize % 2 ^ 30) : (arraymapNew h initialSize).Fits n := by
    constructor <;> simp only [arraymapNew, ebpfMalloc, hwords] <;> exact hn
  refine ⟨hfits 1 (by omega), hfits 0 (by omega), hfits _ ?_, .empty _ _⟩
  simp only [arraymapNew, BitVec.toNat_ofNat]
  omega

/-- Every sequence of operations in order, on a table whose blocks are not
empty, ends in a table with strictly increasing keys whose lookup gives the
latest value set and not deleted, and `NULL` where there is none. -/
theorem arraymap_finite_map (initialSize : ℕ) (hsize : initialSize % 2 ^ 30 ≠ 0) (h₀ : Heap)
    (ops : List (Heap × Op)) (hrun : RunInOrder (arraymapNew h₀ initialSize) ops) :
    ∃ m, runOps (arraymapNew h₀ initialSize) ops = some m ∧
      SortedTo m.keys.cells m.curSize.toNat ∧
      ∀ h key, arraymapGet h m key =
        ((ops.map Prod.snd).foldl record (fun _ => none) key).getD 0 := by
  obtain ⟨m, hm, hv⟩ := (arraymapNew_valid h₀ hsize).runOps hrun
  exact ⟨m, hm, hv.represents.sorted, hv.get⟩

/-! ### Keys that arrive in descending order -/

def zeroHeap : Heap where
  keysBehind := fun _ => 0
  valsBehind := fun _ => 0
  keysFresh := fun _ => 0
  valsFresh := fun _ => 0

/-- The table of eight slots after `set(key, 1)`. -/
def oneKey (key : BitVec 32) : Arraymap where
  maxSize := 8
  curSize := 1
  keys := { cells := Function.update (fun _ => 0) 0 key, words := 8 }
  vals := { cells := Function.update (fun _ => 0) 0 1, words := 8 }

theorem set_oneKey (key : BitVec 32) :
    applyOp zeroHeap (arraymapNew zeroHeap 8) (.set key 1) = some (oneKey key) := rfl

/-- The table of eight slots after `set(first, 1)` and `set(second, 2)`. -/
def twoKeys (first second : BitVec 32) : Arraymap where
  maxSize := 8
  curSize := 2
  keys := { cells := Function.update (oneKey first).keys.cells 1 second, words := 8 }
  vals := { cells := Function.update (oneKey first).vals.cells 1 2, words := 8 }

theorem set_twoKeys {first second : BitVec 32} (hne : second ≠ 0) :
    applyOp zeroHeap (oneKey first) (.set second 2) = some (twoKeys first second) := by
  have hbound :
      lowerBound ((oneKey first).key zeroHeap) (oneKey first).curSize.toNat second = 1 := by
    unfold lowerBound lowerBoundLoop
    rfl
  have hstale : (oneKey first).key zeroHeap 1 ≠ second := hne.symm
  have hsize : (oneKey first).curSize ≠ 0 := by
    show (1 : BitVec 16) ≠ 0
    decide
  simp only [applyOp, arraymapSet, hbound, if_neg hstale, if_neg hsize]
  rfl

/-- After `set(5, 1)` and `set(3, 2)` the value of 3 is lost, and the keys
are out of order. -/
theorem descending_keys_lost :
    (([.set 5 1, .set 3 2] : List Op).foldl record fun _ => none) 3 = some 2 ∧
      ∃ m, runOps (arraymapNew zeroHeap 8) [(zeroHeap, .set 5 1), (zeroHeap, .set 3 2)] = some m ∧
        arraymapGet zeroHeap m 3 = 0 ∧ ¬SortedTo m.keys.cells m.curSize.toNat := by
  refine ⟨rfl, twoKeys 5 3, ?_, ?_, ?_⟩
  · simp only [runOps, set_oneKey, Option.bind_some]
    rw [set_twoKeys (by decide)]
    rfl
  · have hsearch :
        binarySearch ((twoKeys 5 3).key zeroHeap) (twoKeys 5 3).curSize.toNat 3 = -1 := by
      show binarySearchLoop ((twoKeys 5 3).key zeroHeap) 3 0 1 = -1
      unfold binarySearchLoop
      have h5 : (twoKeys 5 3).key zeroHeap 0 = 5 := rfl
      simp only [show ((0 : ℤ) + 1) / 2 = 0 by decide, Int.toNat_zero, h5]
      rw [if_pos (by decide), if_neg (by decide), if_pos (by decide)]
      unfold binarySearchLoop
      rfl
    unfold arraymapGet
    rw [hsearch]
    rfl
  · intro hsorted
    exact absurd (hsorted 0 1 (by decide) (by decide)) (by decide)

/-- Two keys set in ascending order, and the first deleted. -/
theorem ascending_keys_kept :
    ∃ m, runOps (arraymapNew zeroHeap 8)
        [(zeroHeap, .set 3 1), (zeroHeap, .set 5 2), (zeroHeap, .del 3)] = some m ∧
      SortedTo m.keys.cells m.curSize.toNat ∧
      ∀ h key, arraymapGet h m key =
        (([.set 3 1, .set 5 2, .del 3] : List Op).foldl record (fun _ => none) key).getD 0 := by
  refine arraymap_finite_map 8 (by decide) zeroHeap
    [(zeroHeap, .set 3 1), (zeroHeap, .set 5 2), (zeroHeap, .del 3)] ?_
  refine ⟨fun _ _ _ hne => absurd rfl hne, fun m h₁ => ?_⟩
  rw [set_oneKey] at h₁
  cases h₁
  refine ⟨fun key val hop _ => ?_, fun m _ => ⟨?_, fun _ _ => trivial⟩⟩
  rotate_left
  · intro key val hop
    cases hop
  cases hop
  refine ⟨by decide, ?_, fun _ => by decide⟩
  rintro ⟨-, hstale⟩
  revert hstale
  decide

end RapidPatch.Store
