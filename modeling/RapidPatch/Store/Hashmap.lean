import Mathlib.Data.List.Nodup
import RapidPatch.Support.Blocks
import RapidPatch.Support.Events

/-!
The hash map of `ebpf_map.c`.

Eight buckets are made when they are needed, each an array of ten pointers to
nodes. `Hashmap_set` puts another node behind the others of its bucket, whether
there is one for the key or not, and does not look whether there is room;
`Hashmap_get` and `Hashmap_delete` take the first node of the key, and
`Hashmap_delete` follows the pointer to a bucket that has not been made. So a
value that is set again is not found, an old one comes back, and the map is a
finite map exactly as long as no call does any of this
(`hashmap_faithful_iff`).
-/

namespace RapidPatch.Store

open RapidPatch.Support

/-! ### Arrays of pointers -/

/-- `DArray`: the slots, and `end`. A null is `none`. -/
structure DArray (α : Type) where
  endIdx : ℕ
  contents : List (Option α)

namespace DArray

variable {α : Type}

/-- `arr->max`. -/
def max (arr : DArray α) : ℕ := arr.contents.length

/-- `DArray_create`. -/
def create (initialMax : ℕ) : DArray α where
  endIdx := 0
  contents := List.replicate initialMax none

/-- `DArray_get`. -/
def get (arr : DArray α) (index : ℕ) : Option α :=
  if index < arr.max then arr.contents[index]?.join else none

/-- `DArray_set`. -/
def set (arr : DArray α) (index : ℕ) (val : Option α) : DArray α :=
  if index ≥ arr.max then arr
  else
    { endIdx := if index > arr.endIdx then index else arr.endIdx
      contents := arr.contents.set index val }

/-- `DArray_push`, if the slot is one of the array's. -/
def push (arr : DArray α) (el : α) : Option (DArray α) :=
  if arr.endIdx < arr.max then
    some { endIdx := arr.endIdx + 1, contents := arr.contents.set arr.endIdx (some el) }
  else none

/-- `DArray_pop`. -/
def pop (arr : DArray α) : Option α × DArray α :=
  if 0 < arr.endIdx then
    (arr.contents[arr.endIdx - 1]?.join,
      { endIdx := arr.endIdx - 1, contents := arr.contents.set (arr.endIdx - 1) none })
  else (none, arr)

/-- A pointer that is in a slot already leads to other contents. -/
def put (arr : DArray α) (index : ℕ) (val : α) : DArray α :=
  { arr with contents := arr.contents.set index (some val) }

/-- An array of `n` slots has these elements, and nulls behind them. -/
structure Holds (arr : DArray α) (xs : List α) (n : ℕ) : Prop where
  endIdx : arr.endIdx = xs.length
  contents : arr.contents = xs.map some ++ List.replicate (n - xs.length) none
  le : xs.length ≤ n

variable {arr : DArray α} {xs : List α} {x : α} {i j n : ℕ}

theorem holds_create (n : ℕ) : (create n : DArray α).Holds [] n :=
  ⟨rfl, rfl, Nat.zero_le n⟩

theorem get_create (n endIdx i : ℕ) :
    ({ create n with endIdx := endIdx } : DArray α).get i = none := by
  simp only [DArray.get, create, List.getElem?_replicate]
  split
  · split <;> rfl
  · rfl

theorem Holds.max_eq (h : arr.Holds xs n) : arr.max = n := by
  have hle := h.le
  simp only [max, h.contents, List.length_append, List.length_map, List.length_replicate]
  omega

theorem Holds.get (h : arr.Holds xs n) (hi : i < xs.length) : arr.get i = xs[i]? := by
  have hlt : i < arr.max := by
    rw [h.max_eq]
    exact Nat.lt_of_lt_of_le hi h.le
  rw [DArray.get, if_pos hlt, h.contents, List.getElem?_append_left (by simpa using hi)]
  simp [hi]

theorem Holds.push (h : arr.Holds xs n) (hlt : xs.length < n) (x : α) :
    ∃ arr', arr.push x = some arr' ∧ arr'.Holds (xs ++ [x]) n := by
  have hroom : arr.endIdx < arr.max := by
    rw [h.max_eq, h.endIdx]
    exact hlt
  obtain ⟨k, hk⟩ : ∃ k, n - xs.length = k + 1 := ⟨n - xs.length - 1, by omega⟩
  have hrest : n - (xs.length + 1) = k := by omega
  refine ⟨_, if_pos hroom, ?_, ?_, ?_⟩
  · simp [h.endIdx]
  · simp [h.contents, h.endIdx, hk, hrest, List.replicate_succ]
  · rw [List.length_append]
    exact hlt

theorem Holds.pop (h : arr.Holds (xs ++ [x]) n) :
    arr.pop.1 = some x ∧ arr.pop.2.Holds xs n := by
  have hle := h.le
  have hend := h.endIdx
  simp only [List.length_append, List.length_cons, List.length_nil, Nat.zero_add] at hle hend
  have hpos : 0 < arr.endIdx := by omega
  have hlast : arr.endIdx - 1 = xs.length := by omega
  obtain ⟨k, hk⟩ : ∃ k, n - xs.length = k + 1 := ⟨n - xs.length - 1, by omega⟩
  have hrest : n - (xs.length + 1) = k := by omega
  simp only [DArray.pop, if_pos hpos, hlast]
  refine ⟨by simp [h.contents], rfl, ?_, by omega⟩
  simp [h.contents, hk, hrest, List.replicate_succ]

theorem Holds.set (h : arr.Holds xs n) (hi : i < xs.length) (x : α) :
    (arr.set i (some x)).Holds (xs.set i x) n := by
  have hle := h.le
  have hend := h.endIdx
  have hin : ¬i ≥ arr.max := by
    rw [h.max_eq]
    omega
  have hnot : ¬i > arr.endIdx := by omega
  simp only [DArray.set, if_neg hin, if_neg hnot]
  refine ⟨by simpa using hend, ?_, by simpa using hle⟩
  simp [h.contents, hi]

theorem max_put (val : α) : (arr.put i val).max = arr.max := List.length_set

theorem get_put (val : α) (hi : i < arr.max) :
    (arr.put i val).get j = if j = i then some val else arr.get j := by
  rw [DArray.get, DArray.get, max_put]
  by_cases hji : j = i
  · subst hji
    have hi' : j < arr.contents.length := hi
    simp only [put, List.getElem?_set_self hi', if_pos hi, Option.join_some, if_true]
  · simp only [put, List.getElem?_set_ne (Ne.symm hji), if_neg hji]

/-- Below `end`, `DArray_set` does nothing else. -/
theorem set_eq_put (val : α) (hi : i < arr.max) (hend : i ≤ arr.endIdx) :
    arr.set i (some val) = arr.put i val := by
  rw [DArray.set, if_neg (Nat.not_le.mpr hi), if_neg (Nat.not_lt.mpr hend)]
  rfl

end DArray

/-! ### The map -/

abbrev CString := { s : List (BitVec 8) // 0 ∉ s }

/-- `str_hash_fn`. Whether `char` has a sign is the compiler's choice. -/
def strHashFn (charSigned : Bool) (key : CString) : BitVec 32 :=
  let len := (BitVec.ofNat 32 key.val.length).toInt
  let hash := (key.val.take len.toNat).foldl
    (fun (hash : BitVec 32) c =>
      let hash := hash + if charSigned then c.signExtend 32 else c.setWidth 32
      let hash := hash + (hash <<< 10)
      hash ^^^ (hash >>> 6)) 0
  let hash := hash + (hash <<< 3)
  let hash := hash ^^^ (hash >>> 11)
  hash + (hash <<< 15)

/-- `HashmapNode`. A value is a pointer, and null is zero. -/
structure HashmapNode (K : Type) where
  key : K
  value : BitVec 32
  hash : BitVec 32

/-- `Hashmap`, and the heap of its nodes. A slot of `buckets` is the only
pointer to its bucket, and a slot of a bucket is a pointer to a node. -/
structure Hashmap (K : Type) where
  nodes : Blocks (HashmapNode K)
  buckets : DArray (DArray ℕ)

def bucketNum : BitVec 32 := 8

section

variable {K : Type} [DecidableEq K] (hash : K → BitVec 32)

def hashmapCreate : Hashmap K where
  nodes := .empty
  buckets := { DArray.create bucketNum.toNat with endIdx := bucketNum.toNat }

def bucketIndex (key : K) : ℕ := (hash key % bucketNum).toNat

def hashmapFindBucket (map : Hashmap K) (key : K) (create : Bool) :
    Hashmap K × Option (DArray ℕ) :=
  match map.buckets.get (bucketIndex hash key) with
  | some bucket => (map, some bucket)
  | none =>
      if create then
        let bucket := DArray.create 10
        ({ map with buckets := map.buckets.set (bucketIndex hash key) (some bucket) }, some bucket)
      else (map, none)

def hashmapSet (map : Hashmap K) (key : K) (data : BitVec 32) : Option (Hashmap K) := do
  let (map, bucket) := hashmapFindBucket hash map key true
  let bucket ← bucket
  let (nodes, node) := map.nodes.alloc ⟨key, data, hash key⟩
  let bucket ← bucket.push node
  return { nodes := nodes, buckets := map.buckets.put (bucketIndex hash key) bucket }

/-- The loop of `Hashmap_get_node`, with the turns that are left. -/
def getNodeLoop (nodes : Blocks (HashmapNode K)) (hash : BitVec 32) (bucket : DArray ℕ) (key : K) :
    ℕ → ℕ → Option (Option ℕ)
  | 0, _ => some none
  | n + 1, i => do
      let node ← nodes.read (bucket.get i)
      if node.hash = hash ∧ node.key = key then some (some i)
      else getNodeLoop nodes hash bucket key n (i + 1)

/-- `Hashmap_get_node`, which is `none` where the source has `-1`. -/
def hashmapGetNode (map : Hashmap K) (hash : BitVec 32) (bucket : DArray ℕ) (key : K) :
    Option (Option ℕ) :=
  getNodeLoop map.nodes hash bucket key bucket.endIdx 0

def hashmapGet (map : Hashmap K) (key : K) : Option (BitVec 32) :=
  match (hashmapFindBucket hash map key false).2 with
  | none => some 0
  | some bucket => do
      match ← hashmapGetNode map (hash key) bucket key with
      | none => return 0
      | some i =>
          let node ← map.nodes.read (bucket.get i)
          return node.value

def hashmapDelete (map : Hashmap K) (key : K) : Option (Hashmap K × BitVec 32) := do
  let bucket ← (hashmapFindBucket hash map key false).2
  match ← hashmapGetNode map (hash key) bucket key with
  | none => return (map, 0)
  | some i =>
      let cur := bucket.get i
      let node ← map.nodes.read cur
      let val := node.value
      let (tail, bucket) := bucket.pop
      let bucket := if tail ≠ cur then bucket.set i tail else bucket
      let nodes ← map.nodes.free cur
      return ({ nodes := nodes, buckets := map.buckets.put (bucketIndex hash key) bucket }, val)

end

/-! ### Calls -/

inductive HashmapOp (K : Type)
  | set (key : K) (value : BitVec 32)
  | get (key : K)
  | delete (key : K)

/-- A value that is set is not null. -/
def HashmapOp.Asked {K : Type} : HashmapOp K → Bool
  | .set _ value => value ≠ 0
  | _ => true

/-- The map, and the value of the latest set of each key that no delete came
after, or null. -/
structure HashmapRun (K : Type) where
  map : Hashmap K
  expected : K → BitVec 32

section

variable {K : Type} [DecidableEq K] (hash : K → BitVec 32)

/-- The state after a call, if it does nothing that is not defined. -/
def hashmapStep (s : HashmapRun K) : HashmapOp K → Option (HashmapRun K)
  | .set key value => do
      let map ← hashmapSet hash s.map key value
      return { map := map, expected := Function.update s.expected key value }
  | .get key => do
      let _ ← hashmapGet hash s.map key
      return s
  | .delete key => do
      let (map, _) ← hashmapDelete hash s.map key
      return { map := map, expected := Function.update s.expected key 0 }

def hashmapCall (o : Option (HashmapRun K)) (op : HashmapOp K) : Option (Option (HashmapRun K)) :=
  o.bind fun s => if op.Asked then some (hashmapStep hash s op) else none

def hashmapRun : Option (HashmapRun K) := some ⟨hashmapCreate, fun _ => 0⟩

/-- No call has gone wrong, and every key has the value that is expected. -/
def IsFiniteMap (o : Option (HashmapRun K)) : Prop :=
  ∃ s, o = some s ∧ ∀ key, hashmapGet hash s.map key = some (s.expected key)

def copies (map : Hashmap K) (bucket : DArray ℕ) (key : K) : ℕ :=
  bucket.contents.countP fun p => (map.nodes.read p).any fun node => node.key = key

/-- A key that is set has no other value already, and there is room in its
bucket; a key that is deleted has a bucket, and no two nodes in it. -/
def HashmapFits (o : Option (HashmapRun K)) (op : HashmapOp K) : Prop :=
  ∃ s, o = some s ∧
    match op with
    | .set key value => (s.expected key = 0 ∨ s.expected key = value) ∧
        ∀ bucket, s.map.buckets.get (bucketIndex hash key) = some bucket →
          bucket.endIdx < bucket.max
    | .get _ => True
    | .delete key => ∃ bucket, s.map.buckets.get (bucketIndex hash key) = some bucket ∧
        copies s.map bucket key ≤ 1

end

/-! ### The nodes of a map

An entry is a node with the pointer to it. `HasEntries` gives the entries of
each bucket in their order, and every function of the map is a function of
these lists. -/

abbrev Entry (K : Type) := ℕ × HashmapNode K

section

variable {K : Type} {hash : K → BitVec 32}

/-- A slot of the map leads to these entries. -/
structure SlotHas (hash : K → BitVec 32) (nodes : Blocks (HashmapNode K)) (j : ℕ)
    (slot : Option (DArray ℕ)) (xs : List (Entry K)) : Prop where
  made : ∀ bucket, slot = some bucket → bucket.Holds (xs.map Prod.fst) 10
  missing : slot = none → xs = []
  nodup : (xs.map Prod.fst).Nodup
  cell : ∀ x ∈ xs, nodes.cell x.1 = some x.2
  node : ∀ x ∈ xs, x.2.hash = hash x.2.key ∧ bucketIndex hash x.2.key = j

/-- The entries of every bucket of a map. -/
structure HasEntries (hash : K → BitVec 32) (map : Hashmap K) (f : ℕ → List (Entry K)) : Prop where
  max : map.buckets.max = bucketNum.toNat
  endIdx : map.buckets.endIdx = bucketNum.toNat
  slot : ∀ j, SlotHas hash map.nodes j (map.buckets.get j) (f j)

variable {nodes nodes' : Blocks (HashmapNode K)} {slot : Option (DArray ℕ)} {bucket : DArray ℕ}
  {xs ys a b : List (Entry K)} {x : Entry K} {map map' : Hashmap K} {f : ℕ → List (Entry K)}
  {key k : K} {value : BitVec 32} {j i n : ℕ}

theorem bucketIndex_lt (hash : K → BitVec 32) (key : K) :
    bucketIndex hash key < bucketNum.toNat := by
  rw [bucketIndex, BitVec.toNat_umod]
  exact Nat.mod_lt _ (by decide)

theorem SlotHas.frame (h : SlotHas hash nodes j slot xs)
    (hcell : ∀ x ∈ xs, nodes'.cell x.1 = some x.2) : SlotHas hash nodes' j slot xs :=
  { h with cell := hcell }

theorem HasEntries.ptr_ne (h : HasEntries hash map f) {y : Entry K} (hx : x ∈ f i) (hy : y ∈ f j)
    (hij : i ≠ j) : x.1 ≠ y.1 := by
  intro heq
  have hnode : x.2 = y.2 := by
    have hcell := (h.slot i).cell x hx
    rw [heq, (h.slot j).cell y hy] at hcell
    exact (Option.some.inj hcell).symm
  apply hij
  rw [← ((h.slot i).node x hx).2, ← ((h.slot j).node y hy).2, hnode]

/-- Another bucket and other nodes, which leave the entries of the other
buckets as they are. -/
theorem HasEntries.put (h : HasEntries hash map f) (hj : j < bucketNum.toNat)
    (hslot : SlotHas hash nodes j (some bucket) xs)
    (hcell : ∀ i ≠ j, ∀ x ∈ f i, nodes.cell x.1 = some x.2) :
    HasEntries hash ⟨nodes, map.buckets.put j bucket⟩ (Function.update f j xs) := by
  have hlt : j < map.buckets.max := by
    rw [h.max]
    exact hj
  refine ⟨(DArray.max_put bucket).trans h.max, h.endIdx, fun i => ?_⟩
  rw [DArray.get_put bucket hlt]
  by_cases hij : i = j
  · subst hij
    rw [Function.update_self, if_pos rfl]
    exact hslot
  · rw [Function.update_of_ne hij, if_neg hij]
    exact (h.slot i).frame (hcell i hij)

theorem slotHas_nil (hmade : ∀ bucket, slot = some bucket → bucket.Holds [] 10) :
    SlotHas hash nodes j slot [] where
  made := hmade
  missing := fun _ => rfl
  nodup := List.nodup_nil
  cell := fun _ hx => absurd hx List.not_mem_nil
  node := fun _ hx => absurd hx List.not_mem_nil

theorem hasEntries_create : HasEntries hash hashmapCreate fun _ => [] := by
  refine ⟨rfl, rfl, fun j => slotHas_nil fun bucket hbucket => ?_⟩
  rw [hashmapCreate, DArray.get_create] at hbucket
  cases hbucket

/-- The last pointer of a bucket takes the place of another. -/
theorem SlotHas.takeOut (h : SlotHas hash nodes j (some bucket) (a ++ x :: b)) :
    ∃ ys : List (Entry K), ys.Perm (a ++ b) ∧
      (if bucket.pop.1 ≠ some x.1 then bucket.pop.2.set a.length bucket.pop.1
        else bucket.pop.2).Holds (ys.map Prod.fst) 10 := by
  have hhold := h.made bucket rfl
  rcases List.eq_nil_or_concat' b with rfl | ⟨c, t, rfl⟩
  · rw [List.map_append] at hhold
    obtain ⟨htail, hpop⟩ := hhold.pop
    refine ⟨a, by rw [List.append_nil], ?_⟩
    rw [if_neg (not_not.mpr htail)]
    exact hpop
  · have hlast : (a ++ x :: (c ++ [t])).map Prod.fst =
        ((a ++ x :: c).map Prod.fst) ++ [t.1] := by simp
    rw [hlast] at hhold
    obtain ⟨htail, hpop⟩ := hhold.pop
    have hne : t.1 ≠ x.1 := by
      have hnodup := h.nodup
      rw [List.map_append, List.map_cons, List.nodup_middle, List.nodup_cons] at hnodup
      rintro heq
      apply hnodup.1
      simp [← heq]
    refine ⟨a ++ t :: c, ?_, ?_⟩
    · exact (List.perm_append_singleton t c).symm.append_left a
    · have hif : bucket.pop.1 ≠ some x.1 := by
        rw [htail]
        exact fun heq => hne (Option.some.inj heq)
      rw [if_pos hif, htail]
      have hset := hpop.set (i := a.length) (by simp) t.1
      simpa using hset

/-! ### Setting a value -/

theorem HasEntries.findBucket (h : HasEntries hash map f) (key : K) :
    ∃ map' bucket, hashmapFindBucket hash map key true = (map', some bucket) ∧
      map'.nodes = map.nodes ∧ map'.buckets.get (bucketIndex hash key) = some bucket ∧
      HasEntries hash map' f := by
  have hlt := bucketIndex_lt hash key
  cases hbucket : map.buckets.get (bucketIndex hash key) with
  | some bucket =>
      refine ⟨map, bucket, ?_, rfl, hbucket, h⟩
      simp only [hashmapFindBucket, hbucket]
  | none =>
      have hnil : f (bucketIndex hash key) = [] := (h.slot _).missing hbucket
      have hnew : SlotHas hash map.nodes (bucketIndex hash key) (some (DArray.create 10)) [] := by
        refine slotHas_nil fun bucket hb => ?_
        cases hb
        exact DArray.holds_create 10
      have hput := h.put hlt hnew fun i _ x hx => (h.slot i).cell x hx
      rw [← hnil, Function.update_eq_self] at hput
      have hmax : bucketIndex hash key < map.buckets.max := by
        rw [h.max]
        exact hlt
      have hend : bucketIndex hash key ≤ map.buckets.endIdx := by
        rw [h.endIdx]
        exact Nat.le_of_lt hlt
      refine ⟨⟨map.nodes, map.buckets.put (bucketIndex hash key) (DArray.create 10)⟩,
        DArray.create 10, ?_, rfl, ?_, hput⟩
      · simp only [hashmapFindBucket, hbucket, if_true, DArray.set_eq_put _ hmax hend]
      · rw [DArray.get_put _ hmax, if_pos rfl]

theorem HasEntries.set (h : HasEntries hash map f)
    (hroom : (f (bucketIndex hash key)).length < 10) (value : BitVec 32) :
    ∃ map', hashmapSet hash map key value = some map' ∧
      HasEntries hash map' (Function.update f (bucketIndex hash key)
        (f (bucketIndex hash key) ++ [(map.nodes.count, ⟨key, value, hash key⟩)])) := by
  obtain ⟨map₁, bucket, hfind, hnodes, hbucket, h₁⟩ := h.findBucket key
  have hslot := h₁.slot (bucketIndex hash key)
  rw [hbucket] at hslot
  obtain ⟨bucket', hpush, hhold⟩ :=
    (hslot.made bucket rfl).push (by rw [List.length_map]; exact hroom) map.nodes.count
  refine ⟨⟨(map.nodes.alloc ⟨key, value, hash key⟩).1,
    map₁.buckets.put (bucketIndex hash key) bucket'⟩, ?_, ?_⟩
  · simp only [hashmapSet, hfind, hnodes, Blocks.alloc_snd, Option.bind_eq_bind, Option.bind_some,
      hpush]
    rfl
  · have hcell (i : ℕ) (x : Entry K) (hx : x ∈ f i) :
        (map.nodes.alloc ⟨key, value, hash key⟩).1.cell x.1 = some x.2 :=
      Blocks.alloc_cell ((h.slot i).cell x hx)
    refine h₁.put (bucketIndex_lt hash key) ⟨?_, nofun, ?_, ?_, ?_⟩ fun i _ => hcell i
    · intro b hb
      cases hb
      rw [List.map_append]
      exact hhold
    · rw [List.map_append, List.map_singleton, (List.perm_append_singleton _ _).nodup_iff]
      refine List.nodup_cons.mpr ⟨fun hmem => ?_, hslot.nodup⟩
      obtain ⟨x, hx, hptr⟩ := List.mem_map.mp hmem
      exact Nat.ne_of_lt (Blocks.lt_count ((h.slot _).cell x hx)) hptr
    · rw [List.forall_mem_append, List.forall_mem_singleton]
      exact ⟨hcell _, Blocks.alloc_cell_self⟩
    · rw [List.forall_mem_append, List.forall_mem_singleton]
      exact ⟨hslot.node, rfl, rfl⟩

theorem HasEntries.room (h : HasEntries hash map f)
    (hroom : ∀ bucket, map.buckets.get (bucketIndex hash key) = some bucket →
      bucket.endIdx < bucket.max) : (f (bucketIndex hash key)).length < 10 := by
  have hslot := h.slot (bucketIndex hash key)
  cases hbucket : map.buckets.get (bucketIndex hash key) with
  | none =>
      rw [hslot.missing hbucket]
      exact Nat.zero_lt_succ 9
  | some bucket =>
      have hhold := hslot.made bucket hbucket
      have hlt := hroom bucket hbucket
      rw [hhold.endIdx, hhold.max_eq, List.length_map] at hlt
      exact hlt

/-- A full bucket has no place for another pointer. -/
theorem hashmapSet_full (hbucket : map.buckets.get (bucketIndex hash key) = some bucket)
    (hfull : ¬bucket.endIdx < bucket.max) (value : BitVec 32) :
    hashmapSet hash map key value = none := by
  simp only [hashmapSet, hashmapFindBucket, hbucket, DArray.push, if_neg hfull,
    Option.bind_eq_bind, Option.bind_some, Option.bind_none]

/-! ### The search -/

variable [DecidableEq K]

def lookup (xs : List (Entry K)) (key : K) : BitVec 32 :=
  (xs.find? fun x => x.2.key = key).elim 0 fun x => x.2.value

theorem lookup_of_none (h : ∀ x ∈ xs, x.2.key ≠ key) : lookup xs key = 0 := by
  have hnone : xs.find? (fun x => x.2.key = key) = none := by
    simpa [List.find?_eq_none] using h
  rw [lookup, hnone]
  rfl

theorem lookup_of_first (hx : x.2.key = key) (ha : ∀ y ∈ a, y.2.key ≠ key) :
    lookup (a ++ x :: b) key = x.2.value := by
  have hfind : (a ++ x :: b).find? (fun x => x.2.key = key) = some x := by
    have hnone : a.find? (fun x => x.2.key = key) = none := by
      simpa [List.find?_eq_none] using ha
    rw [List.find?_append, hnone, Option.none_or, List.find?_cons_of_pos (by simpa using hx)]
  rw [lookup, hfind]
  rfl

theorem first_entry (xs : List (Entry K)) (key : K) :
    (∀ x ∈ xs, x.2.key ≠ key) ∨
      ∃ a x b, xs = a ++ x :: b ∧ x.2.key = key ∧ ∀ y ∈ a, y.2.key ≠ key := by
  induction xs with
  | nil => exact .inl fun x hx => absurd hx List.not_mem_nil
  | cons x xs ih =>
      by_cases hx : x.2.key = key
      · exact .inr ⟨[], x, xs, rfl, hx, fun y hy => absurd hy List.not_mem_nil⟩
      · rcases ih with hnone | ⟨a, y, b, rfl, hy, ha⟩
        · exact .inl (List.forall_mem_cons.mpr ⟨hx, hnone⟩)
        · exact .inr ⟨x :: a, y, b, rfl, hy, List.forall_mem_cons.mpr ⟨hx, ha⟩⟩

theorem getNodeLoop_succ (hget : bucket.get i = some x.1) (hcell : nodes.cell x.1 = some x.2)
    (hhash : x.2.hash = hash x.2.key) (key : K) (n : ℕ) :
    getNodeLoop nodes (hash key) bucket key (n + 1) i =
      if x.2.key = key then some (some i)
      else getNodeLoop nodes (hash key) bucket key n (i + 1) := by
  have hcond : x.2.hash = hash key ∧ x.2.key = key ↔ x.2.key = key := by
    refine and_iff_right_of_imp fun hkey => ?_
    rw [hhash, hkey]
  simp only [getNodeLoop, hget, Blocks.read_some, hcell, Option.bind_eq_bind, Option.bind_some,
    hcond]

/-- The loop goes past the entries of other keys. -/
theorem getNodeLoop_skip (hget : ∀ i < a.length, bucket.get (n + i) = a[i]?.map Prod.fst)
    (hcell : ∀ x ∈ a, nodes.cell x.1 = some x.2) (hhash : ∀ x ∈ a, x.2.hash = hash x.2.key)
    (ha : ∀ x ∈ a, x.2.key ≠ key) (turns : ℕ) :
    getNodeLoop nodes (hash key) bucket key (a.length + turns) n =
      getNodeLoop nodes (hash key) bucket key turns (n + a.length) := by
  induction a generalizing n with
  | nil => simp only [List.length_nil, Nat.zero_add, Nat.add_zero]
  | cons x a ih =>
      rw [List.forall_mem_cons] at hcell hhash ha
      have hfirst : bucket.get n = some x.1 := hget 0 (Nat.zero_lt_succ _)
      have hrest (i : ℕ) (hi : i < a.length) : bucket.get (n + 1 + i) = a[i]?.map Prod.fst := by
        rw [Nat.add_right_comm, Nat.add_assoc]
        exact hget (i + 1) (Nat.succ_lt_succ hi)
      have hturns : (x :: a).length + turns = a.length + turns + 1 := by
        rw [List.length_cons]
        omega
      rw [hturns, getNodeLoop_succ hfirst hcell.1 hhash.1, if_neg ha.1,
        ih hrest hcell.2 hhash.2 ha.2, List.length_cons, Nat.add_assoc, Nat.add_comm 1]

theorem SlotHas.getNode_none (h : SlotHas hash map.nodes j (some bucket) xs)
    (hnone : ∀ x ∈ xs, x.2.key ≠ key) :
    hashmapGetNode map (hash key) bucket key = some none := by
  have hhold := h.made bucket rfl
  have hget (i : ℕ) (hi : i < xs.length) : bucket.get (0 + i) = xs[i]?.map Prod.fst := by
    rw [Nat.zero_add, hhold.get (by simpa using hi), List.getElem?_map]
  have hskip := getNodeLoop_skip hget h.cell (fun x hx => (h.node x hx).1) hnone 0
  rw [hashmapGetNode, hhold.endIdx, List.length_map]
  exact hskip

theorem SlotHas.getNode_first (h : SlotHas hash map.nodes j (some bucket) (a ++ x :: b))
    (hx : x.2.key = key) (ha : ∀ y ∈ a, y.2.key ≠ key) :
    hashmapGetNode map (hash key) bucket key = some (some a.length) ∧
      bucket.get a.length = some x.1 := by
  have hhold := h.made bucket rfl
  have hget (i : ℕ) (hi : i < (a ++ x :: b).length) :
      bucket.get i = (a ++ x :: b)[i]?.map Prod.fst := by
    rw [hhold.get (by simpa using hi), List.getElem?_map]
  have hbefore (i : ℕ) (hi : i < a.length) : bucket.get (0 + i) = a[i]?.map Prod.fst := by
    rw [Nat.zero_add, hget i (by rw [List.length_append]; omega), List.getElem?_append_left hi]
  have hat : bucket.get a.length = some x.1 := by
    rw [hget a.length (by simp)]
    simp
  have hmem : ∀ y ∈ a, y ∈ a ++ x :: b := fun y hy => List.mem_append_left _ hy
  have hxmem : x ∈ a ++ x :: b := List.mem_append_right _ List.mem_cons_self
  have hskip := getNodeLoop_skip hbefore (fun y hy => h.cell y (hmem y hy))
    (fun y hy => (h.node y (hmem y hy)).1) ha (b.length + 1)
  refine ⟨?_, hat⟩
  rw [hashmapGetNode, hhold.endIdx, List.length_map, List.length_append, List.length_cons, hskip,
    Nat.zero_add, getNodeLoop_succ hat (h.cell x hxmem) (h.node x hxmem).1, if_pos hx]

theorem lookup_mem (h : ∃ x ∈ xs, x.2.key = key) :
    ∃ x ∈ xs, x.2.key = key ∧ lookup xs key = x.2.value := by
  rcases first_entry xs key with hnone | ⟨a, x, b, rfl, hx, ha⟩
  · obtain ⟨x, hx, hkey⟩ := h
    exact absurd hkey (hnone x hx)
  · exact ⟨x, List.mem_append_right _ List.mem_cons_self, hx, lookup_of_first hx ha⟩

theorem lookup_append (h : ∃ x ∈ xs, x.2.key = key) (ys : List (Entry K)) :
    lookup (xs ++ ys) key = lookup xs key := by
  rcases first_entry xs key with hnone | ⟨a, x, b, rfl, hx, ha⟩
  · obtain ⟨x, hx, hkey⟩ := h
    exact absurd hkey (hnone x hx)
  · rw [List.append_assoc, List.cons_append, lookup_of_first hx ha, lookup_of_first hx ha]

/-! ### Getting and deleting a value -/

theorem HasEntries.get (h : HasEntries hash map f) (key : K) :
    hashmapGet hash map key = some (lookup (f (bucketIndex hash key)) key) := by
  have hslot := h.slot (bucketIndex hash key)
  generalize f (bucketIndex hash key) = xs at hslot ⊢
  cases hbucket : map.buckets.get (bucketIndex hash key) with
  | none =>
      rw [hbucket] at hslot
      rw [hslot.missing rfl]
      simp only [hashmapGet, hashmapFindBucket, hbucket]
      rfl
  | some bucket =>
      rw [hbucket] at hslot
      simp only [hashmapGet, hashmapFindBucket, hbucket, Option.bind_eq_bind]
      rcases first_entry xs key with hnone | ⟨a, x, b, rfl, hx, ha⟩
      · rw [hslot.getNode_none hnone, lookup_of_none hnone]
        rfl
      · obtain ⟨hfound, hptr⟩ := hslot.getNode_first hx ha
        have hcell := hslot.cell x (List.mem_append_right _ List.mem_cons_self)
        simp only [hfound, Option.bind_some, hptr, Blocks.read_some, hcell, lookup_of_first hx ha]
        rfl

/-- `Hashmap_delete` follows the null pointer of a bucket that was not made. -/
theorem hashmapDelete_missing (hbucket : map.buckets.get (bucketIndex hash key) = none) :
    hashmapDelete hash map key = none := by
  simp only [hashmapDelete, hashmapFindBucket, hbucket, Bool.false_eq_true, if_false,
    Option.bind_eq_bind, Option.bind_none]

theorem HasEntries.delete_none (h : HasEntries hash map f)
    (hbucket : map.buckets.get (bucketIndex hash key) = some bucket)
    (hnone : ∀ x ∈ f (bucketIndex hash key), x.2.key ≠ key) :
    hashmapDelete hash map key = some (map, 0) := by
  have hslot := h.slot (bucketIndex hash key)
  rw [hbucket] at hslot
  simp only [hashmapDelete, hashmapFindBucket, hbucket, hslot.getNode_none hnone,
    Option.bind_eq_bind, Option.bind_some]
  rfl

/-- The first entry of the key is taken out. -/
theorem HasEntries.delete_first (h : HasEntries hash map f)
    (hbucket : map.buckets.get (bucketIndex hash key) = some bucket)
    (hf : f (bucketIndex hash key) = a ++ x :: b) (hx : x.2.key = key)
    (ha : ∀ y ∈ a, y.2.key ≠ key) :
    ∃ map' bucket' ys, List.Perm ys (a ++ b) ∧
      hashmapDelete hash map key = some (map', x.2.value) ∧
      map'.buckets.get (bucketIndex hash key) = some bucket' ∧
      HasEntries hash map' (Function.update f (bucketIndex hash key) ys) := by
  have hslot := h.slot (bucketIndex hash key)
  rw [hbucket, hf] at hslot
  obtain ⟨hfound, hptr⟩ := hslot.getNode_first hx ha
  obtain ⟨ys, hperm, hhold⟩ := hslot.takeOut
  have hxmem : x ∈ a ++ x :: b := List.mem_append_right _ List.mem_cons_self
  have hlive := hslot.cell x hxmem
  have hsub : ∀ y ∈ ys, y ∈ a ++ x :: b := fun y hy =>
    List.perm_middle.mem_iff.mpr (List.mem_cons_of_mem x (hperm.mem_iff.mp hy))
  have hnodup := hslot.nodup
  rw [List.map_append, List.map_cons, List.nodup_middle, List.nodup_cons, ← List.map_append,
    (hperm.symm.map Prod.fst).nodup_iff, (hperm.symm.map Prod.fst).mem_iff] at hnodup
  generalize htaken : (if bucket.pop.1 ≠ some x.1 then bucket.pop.2.set a.length bucket.pop.1
    else bucket.pop.2) = bucket' at hhold
  have hlt : bucketIndex hash key < map.buckets.max := by
    rw [h.max]
    exact bucketIndex_lt hash key
  refine ⟨⟨map.nodes.put x.1 none, map.buckets.put (bucketIndex hash key) bucket'⟩, bucket', ys,
    hperm, ?_, ?_, h.put (bucketIndex_lt hash key) ⟨?_, nofun, hnodup.2, ?_, ?_⟩ ?_⟩
  · simp only [hashmapDelete, hashmapFindBucket, hbucket, hfound, hptr, Blocks.read_some, hlive,
      Blocks.free_of_live hlive, Option.bind_eq_bind, Option.bind_some, ← htaken]
    rfl
  · rw [DArray.get_put _ hlt, if_pos rfl]
  · intro taken hb
    cases hb
    exact hhold
  · intro y hy
    rw [Blocks.put_cell_of_ne fun heq => hnodup.1 (List.mem_map.mpr ⟨y, hy, heq⟩)]
    exact hslot.cell y (hsub y hy)
  · exact fun y hy => hslot.node y (hsub y hy)
  · intro i hi y hy
    have hxf : x ∈ f (bucketIndex hash key) := by
      rw [hf]
      exact hxmem
    rw [Blocks.put_cell_of_ne (h.ptr_ne hy hxf hi)]
    exact (h.slot i).cell y hy

theorem SlotHas.copies_eq (h : SlotHas hash map.nodes j (some bucket) xs) (key : K) :
    copies map bucket key = xs.countP fun x => x.2.key = key := by
  rw [copies, (h.made bucket rfl).contents, List.countP_append, List.countP_replicate,
    List.map_map, List.countP_map]
  simp only [Blocks.read_none, Option.any_none, Bool.false_eq_true, if_false, Nat.add_zero]
  refine List.countP_congr fun x hx => ?_
  simp [h.cell x hx]

/-- With one entry of a key, there is at most one if the others have other
keys. -/
theorem countP_le_one (hx : x.2.key = key) :
    (a ++ x :: b).countP (fun x => x.2.key = key) ≤ 1 ↔ ∀ y ∈ a ++ b, y.2.key ≠ key := by
  rw [List.perm_middle.countP_eq, List.countP_cons_of_pos (by simpa using hx),
    Nat.succ_le_succ_iff, Nat.le_zero, List.countP_eq_zero]
  simp only [decide_eq_true_eq]

/-! ### Runs -/

/-- A run whose calls have all fitted: every entry has the value that is
expected, and every value has an entry. -/
structure HashmapRun.Valid (s : HashmapRun K) (hash : K → BitVec 32) (f : ℕ → List (Entry K)) :
    Prop where
  entries : HasEntries hash s.map f
  value : ∀ j, ∀ x ∈ f j, x.2.value = s.expected x.2.key ∧ s.expected x.2.key ≠ 0
  found : ∀ k, s.expected k ≠ 0 → ∃ x ∈ f (bucketIndex hash k), x.2.key = k

def ValidHashmap (hash : K → BitVec 32) (o : Option (HashmapRun K)) : Prop :=
  ∃ s f, o = some s ∧ s.Valid hash f

variable {s : HashmapRun K} {o o' : Option (HashmapRun K)} {op : HashmapOp K}

theorem HashmapRun.Valid.lookup_eq (hs : s.Valid hash f) (key : K) :
    lookup (f (bucketIndex hash key)) key = s.expected key := by
  by_cases hfound : ∃ x ∈ f (bucketIndex hash key), x.2.key = key
  · obtain ⟨x, hx, hkey, hlookup⟩ := lookup_mem hfound
    rw [hlookup, (hs.value _ x hx).1, hkey]
  · have hzero : s.expected key = 0 := by
      by_contra hne
      exact hfound (hs.found key hne)
    rw [hzero, lookup_of_none fun x hx hkey => hfound ⟨x, hx, hkey⟩]

theorem ValidHashmap.isFiniteMap (ho : ValidHashmap hash o) : IsFiniteMap hash o := by
  obtain ⟨s, f, rfl, hs⟩ := ho
  exact ⟨s, rfl, fun key => by rw [hs.entries.get, hs.lookup_eq]⟩

theorem hashmapCall_some (hcall : hashmapCall hash (some s) op = some o') :
    op.Asked = true ∧ o' = hashmapStep hash s op := by
  simp only [hashmapCall, Option.bind_some] at hcall
  split at hcall
  · cases hcall
    exact ⟨‹_›, rfl⟩
  · cases hcall

/-- A value is set where there is none, or the same one. -/
theorem HashmapRun.Valid.set (hs : s.Valid hash f) (hvalue : value ≠ 0)
    (hold : s.expected key = 0 ∨ s.expected key = value) {p : ℕ}
    (hmap : HasEntries hash map (Function.update f (bucketIndex hash key)
      (f (bucketIndex hash key) ++ [(p, ⟨key, value, hash key⟩)]))) :
    HashmapRun.Valid { map := map, expected := Function.update s.expected key value } hash
      (Function.update f (bucketIndex hash key)
        (f (bucketIndex hash key) ++ [(p, ⟨key, value, hash key⟩)])) := by
  refine ⟨hmap, fun j x hx => ?_, fun k hk => ?_⟩
  · have hmem : x ∈ f j ∨ x.2.key = key ∧ x.2.value = value := by
      by_cases hj : j = bucketIndex hash key
      · subst hj
        rw [Function.update_self, List.mem_append, List.mem_singleton] at hx
        refine hx.imp_right fun hnew => ?_
        rw [hnew]
        exact ⟨rfl, rfl⟩
      · rw [Function.update_of_ne hj] at hx
        exact .inl hx
    by_cases hkey : x.2.key = key
    · simp only [hkey, Function.update_self]
      refine ⟨?_, hvalue⟩
      rcases hmem with hx | ⟨-, hnew⟩
      · have hentry := hs.value j x hx
        rw [hkey] at hentry
        exact hentry.1.trans (hold.resolve_left hentry.2)
      · exact hnew
    · simp only [Function.update_of_ne hkey]
      exact hs.value j x (hmem.resolve_right fun hnew => hkey hnew.1)
  · by_cases hkey : k = key
    · subst hkey
      rw [Function.update_self]
      exact ⟨_, List.mem_append_right _ List.mem_cons_self, rfl⟩
    · simp only [Function.update_of_ne hkey] at hk
      obtain ⟨x, hx, hxk⟩ := hs.found k hk
      refine ⟨x, ?_, hxk⟩
      by_cases hidx : bucketIndex hash k = bucketIndex hash key
      · rw [hidx, Function.update_self]
        rw [hidx] at hx
        exact List.mem_append_left _ hx
      · rw [Function.update_of_ne hidx]
        exact hx

/-- The only entry of a key is deleted. -/
theorem HashmapRun.Valid.delete (hs : s.Valid hash f)
    (hf : f (bucketIndex hash key) = a ++ x :: b) (hx : x.2.key = key)
    (hothers : ∀ y ∈ a ++ b, y.2.key ≠ key) (hperm : ys.Perm (a ++ b))
    (hmap : HasEntries hash map (Function.update f (bucketIndex hash key) ys)) :
    HashmapRun.Valid { map := map, expected := Function.update s.expected key 0 } hash
      (Function.update f (bucketIndex hash key) ys) := by
  have hmiddle {y : Entry K} : y ∈ f (bucketIndex hash key) ↔ y = x ∨ y ∈ ys := by
    rw [hf, List.perm_middle.mem_iff, List.mem_cons, hperm.mem_iff]
  refine ⟨hmap, fun j y hy => ?_, fun k hk => ?_⟩
  · have hmem : y ∈ f j ∧ y.2.key ≠ key := by
      by_cases hj : j = bucketIndex hash key
      · subst hj
        rw [Function.update_self] at hy
        exact ⟨hmiddle.mpr (.inr hy), hothers y (hperm.mem_iff.mp hy)⟩
      · rw [Function.update_of_ne hj] at hy
        refine ⟨hy, fun hkey => hj ?_⟩
        rw [← ((hs.entries.slot j).node y hy).2, hkey]
    simp only [Function.update_of_ne hmem.2]
    exact hs.value j y hmem.1
  · have hkey : k ≠ key := by
      rintro rfl
      exact hk (Function.update_self ..)
    simp only [Function.update_of_ne hkey] at hk
    obtain ⟨y, hy, hyk⟩ := hs.found k hk
    refine ⟨y, ?_, hyk⟩
    by_cases hidx : bucketIndex hash k = bucketIndex hash key
    · rw [hidx, Function.update_self]
      rw [hidx] at hy
      refine (hmiddle.mp hy).resolve_left ?_
      rintro rfl
      exact hkey (hyk.symm.trans hx)
    · rw [Function.update_of_ne hidx]
      exact hy

/-- A call that fits keeps the run valid. -/
theorem ValidHashmap.call (ho : ValidHashmap hash o) (hfits : HashmapFits hash o op)
    (hcall : hashmapCall hash o op = some o') : ValidHashmap hash o' := by
  obtain ⟨s, f, rfl, hs⟩ := ho
  obtain ⟨hasked, rfl⟩ := hashmapCall_some hcall
  obtain ⟨s', hs', hop⟩ := hfits
  cases hs'
  cases op with
  | set key value =>
      have hvalue : value ≠ 0 := by simpa [HashmapOp.Asked] using hasked
      obtain ⟨map', hset, hmap⟩ := hs.entries.set (hs.entries.room hop.2) value
      refine ⟨_, _, ?_, hs.set hvalue hop.1 hmap⟩
      simp only [hashmapStep, hset, Option.bind_eq_bind, Option.bind_some]
      rfl
  | get key =>
      refine ⟨s, f, ?_, hs⟩
      simp only [hashmapStep, hs.entries.get, Option.bind_eq_bind, Option.bind_some]
      rfl
  | delete key =>
      obtain ⟨bucket, hbucket, hcopies⟩ := hop
      have hslot := hs.entries.slot (bucketIndex hash key)
      rw [hbucket] at hslot
      rw [hslot.copies_eq] at hcopies
      rcases first_entry (f (bucketIndex hash key)) key with hnone | ⟨a, x, b, hf, hx, ha⟩
      · have hzero : s.expected key = 0 := by rw [← hs.lookup_eq, lookup_of_none hnone]
        refine ⟨s, f, ?_, hs⟩
        simp only [hashmapStep, hs.entries.delete_none hbucket hnone, Option.bind_eq_bind,
          Option.bind_some, ← hzero, Function.update_eq_self]
        rfl
      · rw [hf, countP_le_one hx] at hcopies
        obtain ⟨map', -, ys, hperm, hdelete, -, hmap⟩ := hs.entries.delete_first hbucket hf hx ha
        refine ⟨_, _, ?_, hs.delete hf hx hcopies hperm hmap⟩
        simp only [hashmapStep, hdelete, Option.bind_eq_bind, Option.bind_some]
        rfl

/-- A call that does not fit is where a run goes wrong. -/
theorem ValidHashmap.fits (ho : ValidHashmap hash o) (hcall : hashmapCall hash o op = some o')
    (hmap : IsFiniteMap hash o') : HashmapFits hash o op := by
  obtain ⟨s, f, rfl, hs⟩ := ho
  obtain ⟨hasked, rfl⟩ := hashmapCall_some hcall
  obtain ⟨t, ht, hget⟩ := hmap
  refine ⟨s, rfl, ?_⟩
  cases op with
  | set key value =>
      have hroom (bucket : DArray ℕ)
          (hbucket : s.map.buckets.get (bucketIndex hash key) = some bucket) :
          bucket.endIdx < bucket.max := by
        by_contra hfull
        simp only [hashmapStep, hashmapSet_full hbucket hfull, Option.bind_eq_bind,
          Option.bind_none] at ht
        cases ht
      refine ⟨?_, hroom⟩
      by_contra hno
      rw [not_or] at hno
      obtain ⟨map', hset, hmap⟩ := hs.entries.set (hs.entries.room hroom) value
      simp only [hashmapStep, hset, Option.bind_eq_bind, Option.bind_some] at ht
      cases ht
      have hfound := hget key
      simp only [hmap.get, Function.update_self, lookup_append (hs.found key hno.1), hs.lookup_eq,
        Option.some.injEq] at hfound
      exact hno.2 hfound
  | get key => trivial
  | delete key =>
      cases hbucket : s.map.buckets.get (bucketIndex hash key) with
      | none =>
          simp only [hashmapStep, hashmapDelete_missing hbucket, Option.bind_eq_bind,
            Option.bind_none] at ht
          cases ht
      | some bucket =>
          have hslot := hs.entries.slot (bucketIndex hash key)
          rw [hbucket] at hslot
          refine ⟨bucket, hbucket, ?_⟩
          rw [hslot.copies_eq]
          rcases first_entry (f (bucketIndex hash key)) key with hnone | ⟨a, x, b, hf, hx, ha⟩
          · rw [List.countP_eq_zero.mpr fun x hx => by simpa using hnone x hx]
            exact Nat.zero_le 1
          · rw [hf, countP_le_one hx]
            intro y hy hkey
            obtain ⟨map', -, ys, hperm, hdelete, -, hmap⟩ :=
              hs.entries.delete_first hbucket hf hx ha
            simp only [hashmapStep, hdelete, Option.bind_eq_bind, Option.bind_some] at ht
            cases ht
            -- An entry of the key is left, and its value is not null.
            obtain ⟨z, hz, hzkey, hlookup⟩ := lookup_mem ⟨y, hperm.mem_iff.mpr hy, hkey⟩
            have hzf : z ∈ f (bucketIndex hash key) := by
              rw [hf, List.perm_middle.mem_iff]
              exact List.mem_cons_of_mem x (hperm.mem_iff.mp hz)
            have hfound := hget key
            simp only [hmap.get, Function.update_self, hlookup, Option.some.injEq] at hfound
            have hvalue := hs.value _ z hzf
            rw [hfound] at hvalue
            exact hvalue.2 hvalue.1.symm

/-- Whatever the hash, a map is a finite map exactly as long as the calls
fit. -/
theorem isFiniteMap_iff_fits (hash : K → BitVec 32) (ops : List (HashmapOp K)) :
    Throughout (hashmapCall hash) (IsFiniteMap hash) hashmapRun ops ↔
      EachStep (hashmapCall hash) (HashmapFits hash) hashmapRun ops := by
  have hstep (u : Option (HashmapRun K)) (e : HashmapOp K) (v : Option (HashmapRun K))
      (hu : ValidHashmap hash u) (hC : HashmapFits hash u e) (hv : hashmapCall hash u e = some v) :
      ValidHashmap hash v := hu.call hC hv
  have hstart : ValidHashmap hash hashmapRun := by
    refine ⟨_, fun _ => [], rfl, hasEntries_create, fun _ x hx => ?_, fun k hk => absurd rfl hk⟩
    exact absurd hx List.not_mem_nil
  exact throughout_iff_eachStep_of_kept hstep (fun _ _ _ hu hv hmap => hu.fits hv hmap)
    (fun _ hu => hu.isFiniteMap) hstart ops

end

/-- A map of strings is a finite map exactly as long as a key is set where it
has no other value and its bucket has room, and is deleted where it has a
bucket and at most one node. -/
theorem hashmap_faithful_iff (charSigned : Bool) (ops : List (HashmapOp CString)) :
    Throughout (hashmapCall (strHashFn charSigned)) (IsFiniteMap (strHashFn charSigned))
        hashmapRun ops ↔
      EachStep (hashmapCall (strHashFn charSigned)) (HashmapFits (strHashFn charSigned))
        hashmapRun ops :=
  isFiniteMap_iff_fits (strHashFn charSigned) ops

/-- A key has its first value after the second one was set, and a key that was
never set cannot be deleted. -/
theorem set_twice_and_delete_fail :
    ¬Throughout (hashmapCall (strHashFn false)) (IsFiniteMap (strHashFn false)) hashmapRun
        [.set ⟨[107], by decide⟩ 1, .set ⟨[107], by decide⟩ 2] ∧
      ¬Throughout (hashmapCall (strHashFn false)) (IsFiniteMap (strHashFn false)) hashmapRun
        [.delete ⟨[107], by decide⟩] := by
  refine ⟨fun h => ?_, fun h => ?_⟩
  · obtain ⟨s, hs, hget⟩ := ((h.2 _ rfl).2 _ rfl).head
    cases hs
    exact absurd (hget ⟨[107], by decide⟩) (by decide)
  · obtain ⟨s, hs, -⟩ := (h.2 _ rfl).head
    cases hs

end RapidPatch.Store
