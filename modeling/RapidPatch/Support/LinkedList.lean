import Mathlib.Data.List.Basic
import Mathlib.Logic.Function.Basic

/-!
Singly linked lists in a heap.

A heap of nodes is seen through its `next` field, a function from nodes to
nullable pointers. `Chain next p l` says that the list behind the pointer
`p` ends and that its nodes are `l`; a chain has no node twice. `walk` is the
loop that follows the pointers until a test succeeds. It counts its turns
against a bound, and `walk_eq` says what it finds in a chain that is shorter.

A `Segment` is a part of a list, up to a node of interest.

A write to a node outside the list leaves the chain as it is, and a write of
a null pointer inside cuts it off behind that node.
-/

namespace RapidPatch.Support

/-- The nodes of the list behind a pointer. -/
inductive Chain (next : ℕ → Option ℕ) : Option ℕ → List ℕ → Prop
  | nil : Chain next none []
  | cons {i : ℕ} {l : List ℕ} (h : Chain next (next i) l) : Chain next (some i) (i :: l)

/-- The nodes passed before a test succeeds, and the node it succeeds on, in
at most `n` turns of the loop. -/
def walk (next : ℕ → Option ℕ) (stop : ℕ → Bool) : ℕ → Option ℕ → List ℕ × Option ℕ
  | 0, _ => ([], none)
  | _ + 1, none => ([], none)
  | n + 1, some i =>
      if stop i then ([], some i)
      else
        let (passed, found) := walk next stop n (next i)
        (i :: passed, found)

/-- The pointers lead from `p` through some nodes to `q`. -/
def Segment (next : ℕ → Option ℕ) (p : Option ℕ) : List ℕ → Option ℕ → Prop
  | [], q => p = q
  | i :: l, q => p = some i ∧ Segment next (next i) l q

section

variable {next : ℕ → Option ℕ} {p : Option ℕ} {l : List ℕ}

theorem Chain.unique {l' : List ℕ} (h : Chain next p l) (h' : Chain next p l') : l = l' := by
  induction h generalizing l' with
  | nil =>
      cases h'
      rfl
  | cons _ ih =>
      cases h' with
      | cons h' => rw [ih h']

/-- A chain from one of its nodes on. -/
theorem Chain.suffix {a b : List ℕ} {i : ℕ} (h : Chain next p (a ++ i :: b)) :
    Chain next (some i) (i :: b) := by
  induction a generalizing p with
  | nil =>
      cases h with
      | cons h => exact .cons h
  | cons j a ih =>
      cases h with
      | cons h => exact ih h

/-- A chain up to one of its nodes. -/
theorem Chain.segment {a b : List ℕ} {i : ℕ} (h : Chain next p (a ++ i :: b)) :
    Segment next p a (some i) := by
  induction a generalizing p with
  | nil =>
      cases h with
      | cons h => rfl
  | cons j a ih =>
      cases h with
      | cons h => exact ⟨rfl, ih h⟩

theorem Segment.update_of_notMem {q : Option ℕ} (h : Segment next p l q) {i : ℕ} (hi : i ∉ l)
    (v : Option ℕ) : Segment (Function.update next i v) p l q := by
  induction l generalizing p with
  | nil => exact h
  | cons j l ih =>
      rw [List.mem_cons, not_or] at hi
      refine ⟨h.1, ?_⟩
      rw [Function.update_of_ne fun hj => hi.1 hj.symm]
      exact ih h.2 hi.2

/-- What the first node has and each node hands on. -/
theorem Segment.of_closed {S : ℕ → Prop} {i : ℕ} (h : Segment next p l (some i))
    (hp : ∀ j, p = some j → S j) (hnext : ∀ j k, S j → next j = some k → S k) : S i := by
  induction l generalizing p with
  | nil => exact hp i h
  | cons j l ih => exact ih h.2 fun k hk => hnext j k (hp j h.1) hk

/-- Nodes that follow each other. -/
theorem segment_range' {a n : ℕ} (h : ∀ j, a ≤ j → j < a + n → next j = some (j + 1)) :
    Segment next (some a) (List.range' a n) (some (a + n)) := by
  induction n generalizing a with
  | zero => rfl
  | succ n ih =>
      have hend : a + (n + 1) = a + 1 + n := by omega
      refine ⟨rfl, ?_⟩
      rw [h a (Nat.le_refl a) (by omega), hend]
      exact ih fun j hj hlt => h j (by omega) (by omega)

theorem Chain.nodup (h : Chain next p l) : l.Nodup := by
  induction h with
  | nil => exact List.nodup_nil
  | @cons i l h ih =>
      refine List.nodup_cons.mpr ⟨fun hi => ?_, ih⟩
      -- a second visit would have to be followed by the whole list again
      obtain ⟨a, b, rfl⟩ := List.append_of_mem hi
      have hlen := congrArg List.length ((Chain.cons h).unique h.suffix)
      simp only [List.length_cons, List.length_append] at hlen
      omega

theorem Chain.update_of_notMem (h : Chain next p l) {i : ℕ} (hi : i ∉ l) (q : Option ℕ) :
    Chain (Function.update next i q) p l := by
  induction h with
  | nil => exact .nil
  | @cons j l h ih =>
      rw [List.mem_cons, not_or] at hi
      refine .cons ?_
      rw [Function.update_of_ne fun hj => hi.1 hj.symm]
      exact ih hi.2

/-- A write inside the list links the nodes in front of it to what the new
pointer leads to. -/
theorem Chain.update_of_mem {a b c : List ℕ} {i : ℕ} {q : Option ℕ}
    (h : Chain next p (a ++ i :: b)) (hq : Chain (Function.update next i q) q c) :
    Chain (Function.update next i q) p (a ++ i :: c) := by
  induction a generalizing p with
  | nil =>
      cases h with
      | cons h =>
          refine .cons ?_
          rw [Function.update_self]
          exact hq
  | cons j a ih =>
      have hnodup := h.nodup
      cases h with
      | cons h =>
          have hne : j ≠ i := by
            rintro rfl
            simp at hnodup
          refine .cons ?_
          rw [Function.update_of_ne hne]
          exact ih h

/-- Enough turns find the first node of a chain that passes the test. -/
theorem walk_eq (stop : ℕ → Bool) {n : ℕ} (h : Chain next p l) (hn : l.length < n) :
    walk next stop n p = (l.takeWhile (!stop ·), l.find? stop) := by
  induction h generalizing n with
  | nil =>
      cases n with
      | zero => cases hn
      | succ n => rfl
  | @cons i l h ih =>
      cases n with
      | zero => cases hn
      | succ n =>
          rw [List.length_cons] at hn
          rw [walk, ih (by omega)]
          by_cases hi : stop i = true
          · simp [hi]
          · simp [hi]

end

end RapidPatch.Support
