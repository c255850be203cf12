import Mathlib.Data.Nat.Notation
import Mathlib.Logic.Function.Basic

/-!
Heap blocks that are live or not.

A pointer is null or names a block; blocks are numbered in the order of their
allocation and no number is used again. Reading and writing need a live
block, and so does freeing, except that nothing happens when the null pointer
is freed. A run in which no operation is `none` has used no null pointer and no
block that was freed, and has freed no block twice.
-/

namespace RapidPatch.Support

/-- The blocks of one type. -/
structure Blocks (α : Type*) where
  /-- What a block holds, `none` if it is not live. -/
  cell : ℕ → Option α
  count : ℕ
  unused : ∀ i, count ≤ i → cell i = none

namespace Blocks

variable {α : Type*} {h h' : Blocks α} {i j : ℕ} {p : Option ℕ} {u v : α}

def empty : Blocks α where
  cell _ := none
  count := 0
  unused _ _ := rfl

def alloc (h : Blocks α) (v : α) : Blocks α × ℕ :=
  ({ cell := Function.update h.cell h.count (some v)
     count := h.count + 1
     unused := by
      intro i hi
      rw [Function.update_of_ne (Nat.ne_of_gt hi)]
      exact h.unused i (Nat.le_of_succ_le hi) }, h.count)

def read (h : Blocks α) (p : Option ℕ) : Option α := p.bind h.cell

def put (h : Blocks α) (i : ℕ) (o : Option α) : Blocks α where
  cell := if i < h.count then Function.update h.cell i o else h.cell
  count := h.count
  unused := by
    intro j hj
    split
    · rename_i hi
      rw [Function.update_of_ne (Nat.ne_of_gt (Nat.lt_of_lt_of_le hi hj))]
      exact h.unused j hj
    · exact h.unused j hj

def write (h : Blocks α) (p : Option ℕ) (v : α) : Option (Blocks α) :=
  match p with
  | none => none
  | some i => if (h.cell i).isSome then some (h.put i (some v)) else none

def free (h : Blocks α) (p : Option ℕ) : Option (Blocks α) :=
  match p with
  | none => some h
  | some i => if (h.cell i).isSome then some (h.put i none) else none

/-! ### Live blocks -/

theorem lt_count (hi : h.cell i = some v) : i < h.count := by
  by_contra hle
  rw [h.unused i (Nat.le_of_not_lt hle)] at hi
  cases hi

@[simp] theorem read_some : h.read (some i) = h.cell i := rfl

@[simp] theorem read_none : h.read none = none := rfl

@[simp] theorem alloc_snd : (h.alloc v).2 = h.count := rfl

@[simp] theorem alloc_count : (h.alloc v).1.count = h.count + 1 := rfl

@[simp] theorem alloc_cell_self : (h.alloc v).1.cell h.count = some v := Function.update_self ..

theorem alloc_cell_of_ne (hi : i ≠ h.count) : (h.alloc v).1.cell i = h.cell i :=
  Function.update_of_ne hi ..

/-- An allocation leaves the live blocks as they are. -/
theorem alloc_cell (hi : h.cell i = some u) : (h.alloc v).1.cell i = some u := by
  rw [alloc_cell_of_ne (Nat.ne_of_lt (lt_count hi))]
  exact hi

/-- An allocation does not bring back a block that was freed. -/
theorem alloc_cell_of_freed (hlt : i < h.count) (hi : h.cell i = none) :
    (h.alloc v).1.cell i = none := by
  rw [alloc_cell_of_ne (Nat.ne_of_lt hlt)]
  exact hi

@[simp] theorem put_count {o : Option α} : (h.put i o).count = h.count := rfl

theorem put_cell {o : Option α} (hi : i < h.count) :
    (h.put i o).cell j = if j = i then o else h.cell j := by
  simp only [put, if_pos hi, Function.update_apply]

theorem put_cell_self {o : Option α} (hi : h.cell i = some u) : (h.put i o).cell i = o := by
  rw [put_cell (lt_count hi), if_pos rfl]

theorem put_cell_of_ne {o : Option α} (hj : j ≠ i) : (h.put i o).cell j = h.cell j := by
  unfold put
  split
  · exact Function.update_of_ne hj ..
  · rfl

theorem write_of_live (hi : h.cell i = some u) : h.write (some i) v = some (h.put i (some v)) := by
  simp only [write, hi, Option.isSome_some, if_true]

/-- A write does not bring back a block that was freed. -/
theorem write_freed (hw : h.write p v = some h') (hj : h.cell j = none) : h'.cell j = none := by
  cases p with
  | none => cases hw
  | some i =>
      simp only [write] at hw
      split at hw
      · rename_i hlive
        cases hw
        rw [put_cell_of_ne ?_]
        · exact hj
        · rintro rfl
          rw [hj] at hlive
          cases hlive
      · cases hw

theorem free_of_live (hi : h.cell i = some u) : h.free (some i) = some (h.put i none) := by
  simp only [free, hi, Option.isSome_some, if_true]

end Blocks

end RapidPatch.Support
