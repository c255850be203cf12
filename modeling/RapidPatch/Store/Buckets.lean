import RapidPatch.Store.Hashmap

/-!
Deletion from a bucket, and the storage of the buckets.

`Hashmap_delete` fills the place of the node it takes out with the last one,
so it changes the order of a bucket. Where the keys of a bucket are different
that cannot be seen (`hashmapDelete_spec`). Whether the calls stay within the
ten slots of a bucket is not looked at by any of them: a run does exactly as
long as each set finds room, and each delete a bucket
(`staysInStorage_iff`).
-/

namespace RapidPatch.Store

open RapidPatch.Support

/-! ### Deletion -/

section

variable {K : Type} {hash : K → BitVec 32} {map : Hashmap K} {f : ℕ → List (Entry K)}
  {bucket : DArray ℕ} {key k : K} {xs ys a b : List (Entry K)} {x : Entry K}

/-- The keys of each bucket are different. -/
def DistinctKeys (f : ℕ → List (Entry K)) : Prop := ∀ j, ((f j).map fun x => x.2.key).Nodup

theorem keys_ne_of_nodup (h : ((a ++ x :: b).map fun x => x.2.key).Nodup) (hx : x.2.key = key) :
    ∀ y ∈ a ++ b, y.2.key ≠ key := by
  rw [List.map_append, List.map_cons, List.nodup_middle, List.nodup_cons, ← List.map_append] at h
  rintro y hy hkey
  exact h.1 (List.mem_map.mpr ⟨y, hy, hkey.trans hx.symm⟩)

theorem HasEntries.endIdx_eq (h : HasEntries hash map f) {j : ℕ}
    (hbucket : map.buckets.get j = some bucket) : bucket.endIdx = (f j).length := by
  have hslot := h.slot j
  rw [hbucket] at hslot
  rw [(hslot.made bucket rfl).endIdx, List.length_map]

/-- A slot with entries has a bucket. -/
theorem HasEntries.exists_bucket (h : HasEntries hash map f) {j : ℕ} (hne : f j ≠ []) :
    ∃ bucket, map.buckets.get j = some bucket := by
  cases hbucket : map.buckets.get j with
  | none => exact absurd ((h.slot j).missing hbucket) hne
  | some bucket => exact ⟨bucket, rfl⟩

theorem DistinctKeys.takeOut {j : ℕ} (h : DistinctKeys f) (hf : f j = a ++ x :: b)
    (hperm : ys.Perm (a ++ b)) : DistinctKeys (Function.update f j ys) := by
  intro i
  by_cases hi : i = j
  · subst hi
    have hnodup := h i
    rw [hf, List.map_append, List.map_cons, List.nodup_middle, List.nodup_cons,
      ← List.map_append] at hnodup
    rw [Function.update_self, (hperm.map _).nodup_iff]
    exact hnodup.2
  · rw [Function.update_of_ne hi]
    exact h i

variable [DecidableEq K]

/-- With different keys the order of the entries does not matter. -/
theorem lookup_perm (hperm : xs.Perm ys) (h : (xs.map fun x => x.2.key).Nodup) (key : K) :
    lookup xs key = lookup ys key := by
  rcases first_entry xs key with hnone | ⟨a, x, b, rfl, hx, ha⟩
  · rw [lookup_of_none hnone, lookup_of_none fun y hy => hnone y (hperm.mem_iff.mpr hy)]
  · have hmem : x ∈ ys := hperm.mem_iff.mp (List.mem_append_right _ List.mem_cons_self)
    obtain ⟨y, hy, hkey, hlookup⟩ := lookup_mem ⟨x, hmem, hx⟩
    have hothers := keys_ne_of_nodup h hx
    have hyx : y = x := by
      have hy' := hperm.mem_iff.mpr hy
      rw [List.perm_middle.mem_iff, List.mem_cons] at hy'
      exact hy'.resolve_right fun hrest => hothers y hrest hkey
    rw [lookup_of_first hx ha, hlookup, hyx]

/-- The other keys do not see an entry that is taken out. -/
theorem lookup_takeOut (hperm : ys.Perm (a ++ b))
    (h : ((a ++ x :: b).map fun x => x.2.key).Nodup) (hx : x.2.key = key) (hk : k ≠ key) :
    lookup ys k = lookup (a ++ x :: b) k := by
  have hcons : (a ++ x :: b).Perm (x :: ys) :=
    List.perm_middle.trans (hperm.symm.cons x)
  have hne : ¬x.2.key = k := fun heq => hk (heq.symm.trans hx)
  rw [lookup_perm hcons h, lookup, lookup, List.find?_cons_of_neg (by simpa using hne)]

/-- An entry that is taken out leaves the values of the other keys. -/
theorem HasEntries.get_takeOut {map' : Hashmap K} (h : HasEntries hash map f)
    (hdistinct : DistinctKeys f) (hf : f (bucketIndex hash key) = a ++ x :: b)
    (hx : x.2.key = key) (hperm : ys.Perm (a ++ b))
    (h' : HasEntries hash map' (Function.update f (bucketIndex hash key) ys)) (hk : k ≠ key) :
    hashmapGet hash map' k = hashmapGet hash map k := by
  rw [h'.get, h.get]
  by_cases hidx : bucketIndex hash k = bucketIndex hash key
  · have hnodup := hdistinct (bucketIndex hash key)
    rw [hf] at hnodup
    rw [hidx, Function.update_self, hf, lookup_takeOut hperm hnodup hx hk]
  · rw [Function.update_of_ne hidx]

/-- What a deletion does to the map, and to the bucket of its key, which had the
entries `xs`. -/
structure Deleted (hash : K → BitVec 32) (map : Hashmap K) (bucket : DArray ℕ) (key : K)
    (xs : List (Entry K)) (map' : Hashmap K) (bucket' : DArray ℕ) : Prop where
  returns : hashmapDelete hash map key = some (map', lookup xs key)
  absent : hashmapGet hash map' key = some 0
  others : ∀ k, k ≠ key → hashmapGet hash map' k = hashmapGet hash map k
  slot : map'.buckets.get (bucketIndex hash key) = some bucket'
  shorter : (∃ x ∈ xs, x.2.key = key) → bucket'.endIdx + 1 = bucket.endIdx
  same : (¬∃ x ∈ xs, x.2.key = key) → bucket'.endIdx = bucket.endIdx

/-- Whatever the hash: the node may be anywhere in its bucket. -/
theorem deleted_of_distinct (h : HasEntries hash map f) (hdistinct : DistinctKeys f)
    (hbucket : map.buckets.get (bucketIndex hash key) = some bucket) :
    ∃ map' bucket' f', HasEntries hash map' f' ∧ DistinctKeys f' ∧
      Deleted hash map bucket key (f (bucketIndex hash key)) map' bucket' := by
  rcases first_entry (f (bucketIndex hash key)) key with hnone | ⟨a, x, b, hf, hx, ha⟩
  · have hzero : lookup (f (bucketIndex hash key)) key = 0 := lookup_of_none hnone
    refine ⟨map, bucket, f, h, hdistinct, ?_, by rw [h.get, hzero], fun _ _ => rfl, hbucket, ?_,
      fun _ => rfl⟩
    · rw [h.delete_none hbucket hnone, hzero]
    · rintro ⟨x, hx, hkey⟩
      exact absurd hkey (hnone x hx)
  · obtain ⟨map', bucket', ys, hperm, hdelete, hbucket', h'⟩ :=
      h.delete_first hbucket hf hx ha
    have hnodup := hdistinct (bucketIndex hash key)
    rw [hf] at hnodup
    have hothers := keys_ne_of_nodup hnodup hx
    refine ⟨map', bucket', _, h', hdistinct.takeOut hf hperm, ?_, ?_,
      fun k hk => h.get_takeOut hdistinct hf hx hperm h' hk, hbucket', fun _ => ?_, fun hnot => ?_⟩
    · rw [hf, lookup_of_first hx ha, hdelete]
    · rw [h'.get, Function.update_self,
        lookup_of_none fun y hy => hothers y (hperm.mem_iff.mp hy)]
    · rw [h'.endIdx_eq hbucket', h.endIdx_eq hbucket, Function.update_self, hf, hperm.length_eq]
      simp only [List.length_append, List.length_cons]
      omega
    · refine absurd ⟨x, ?_, hx⟩ hnot
      rw [hf]
      exact List.mem_append_right _ List.mem_cons_self

end

/-- Deletion from a map of strings whose buckets hold different keys. -/
theorem hashmapDelete_spec (charSigned : Bool) {map : Hashmap CString}
    {f : ℕ → List (Entry CString)} {key : CString} {bucket : DArray ℕ}
    (h : HasEntries (strHashFn charSigned) map f) (hdistinct : DistinctKeys f)
    (hbucket : map.buckets.get (bucketIndex (strHashFn charSigned) key) = some bucket) :
    ∃ map' bucket', Deleted (strHashFn charSigned) map bucket key
      (f (bucketIndex (strHashFn charSigned) key)) map' bucket' := by
  obtain ⟨map', bucket', -, -, -, hdeleted⟩ := deleted_of_distinct h hdistinct hbucket
  exact ⟨map', bucket', hdeleted⟩

def keyA : CString := ⟨[97], by decide⟩

def keyH : CString := ⟨[104], by decide⟩

theorem hashmapDelete_spec_first :
    ∃ map bucket xs map' bucket',
      ((hashmapSet (strHashFn false) hashmapCreate keyA 5).bind fun map =>
        hashmapSet (strHashFn false) map keyH 6) = some map ∧
      xs.map (fun x => x.2.value) = [5, 6] ∧
      Deleted (strHashFn false) map bucket keyA xs map' bucket' := by
  have hidx : bucketIndex (strHashFn false) keyH = bucketIndex (strHashFn false) keyA := by decide
  have h₀ : HasEntries (strHashFn false) hashmapCreate fun _ => [] := hasEntries_create
  obtain ⟨map₁, hset₁, h₁⟩ := @HasEntries.set _ _ _ _ keyA h₀ (by decide) 5
  obtain ⟨map₂, hset₂, h₂⟩ := @HasEntries.set _ _ _ _ keyH h₁ (by rw [hidx]; simp) 6
  rw [hidx, Function.update_self, Function.update_idem] at h₂
  obtain ⟨bucket, hbucket⟩ :=
    h₂.exists_bucket (j := bucketIndex (strHashFn false) keyA) (by simp)
  refine (hashmapDelete_spec false h₂ ?_ hbucket).elim fun map' hmap' =>
    hmap'.elim fun bucket' hdeleted => ?_
  · intro j
    by_cases hj : j = bucketIndex (strHashFn false) keyA
    · subst hj
      rw [Function.update_self]
      show [keyA, keyH].Nodup
      decide
    · rw [Function.update_of_ne hj]
      exact List.nodup_nil
  · rw [Function.update_self] at hdeleted
    exact ⟨map₂, bucket, _, map', bucket', by rw [hset₁]; exact hset₂, rfl, hdeleted⟩

/-! ### Storage -/

section

variable {K : Type} (hash : K → BitVec 32)

/-- No call has left the storage, and `end` is within every bucket. -/
def StaysInStorage (o : Option (Hashmap K)) : Prop :=
  ∃ map, o = some map ∧ ∀ j bucket, map.buckets.get j = some bucket → bucket.endIdx ≤ bucket.max

/-- A map whose calls have stayed in its storage has its entries. -/
def KeepsEntries (o : Option (Hashmap K)) : Prop := ∃ map f, o = some map ∧ HasEntries hash map f

theorem KeepsEntries.staysInStorage {hash : K → BitVec 32} {o : Option (Hashmap K)}
    (ho : KeepsEntries hash o) : StaysInStorage o := by
  obtain ⟨map, f, rfl, h⟩ := ho
  refine ⟨map, rfl, fun j bucket hbucket => ?_⟩
  have hhold := (h.slot j).made bucket hbucket
  rw [hhold.endIdx, hhold.max_eq]
  exact hhold.le

variable [DecidableEq K]

/-- The map after a call that stays in its storage: a missing bucket is not
followed, and a node is pushed below `max`. -/
def storageStep (map : Hashmap K) : HashmapOp K → Option (Hashmap K)
  | .set key value => hashmapSet hash map key value
  | .get key => (hashmapGet hash map key).map fun _ => map
  | .delete key => (hashmapDelete hash map key).map Prod.fst

def storageCall (o : Option (Hashmap K)) (op : HashmapOp K) : Option (Option (Hashmap K)) :=
  o.map fun map => storageStep hash map op

/-- The bucket of a key that is set has room, if it is made; the bucket of a
key that is deleted has been made. -/
def StorageFits (o : Option (Hashmap K)) (op : HashmapOp K) : Prop :=
  ∃ map, o = some map ∧
    match op with
    | .set key _ => ∀ bucket, map.buckets.get (bucketIndex hash key) = some bucket →
        bucket.endIdx < bucket.max
    | .get _ => True
    | .delete key => ∃ bucket, map.buckets.get (bucketIndex hash key) = some bucket

variable {hash} {o o' : Option (Hashmap K)} {op : HashmapOp K}

/-- A call that fits keeps the entries, whatever the keys are. -/
theorem KeepsEntries.call (ho : KeepsEntries hash o) (hfits : StorageFits hash o op)
    (hcall : storageCall hash o op = some o') : KeepsEntries hash o' := by
  obtain ⟨map, f, rfl, h⟩ := ho
  obtain ⟨map', hmap', hop⟩ := hfits
  cases hmap'
  cases hcall
  cases op with
  | set key value =>
      obtain ⟨map', hset, h'⟩ := h.set (h.room hop) value
      exact ⟨map', _, hset, h'⟩
  | get key =>
      refine ⟨map, f, ?_, h⟩
      simp only [storageStep, h.get, Option.map_some]
  | delete key =>
      obtain ⟨bucket, hbucket⟩ := hop
      rcases first_entry (f (bucketIndex hash key)) key with hnone | ⟨a, x, b, hf, hx, ha⟩
      · refine ⟨map, f, ?_, h⟩
        simp only [storageStep, h.delete_none hbucket hnone, Option.map_some]
      · obtain ⟨map', -, ys, -, hdelete, -, h'⟩ := h.delete_first hbucket hf hx ha
        refine ⟨map', _, ?_, h'⟩
        simp only [storageStep, hdelete, Option.map_some]

/-- A call that does not fit leaves the storage. -/
theorem KeepsEntries.fits (ho : KeepsEntries hash o) (hcall : storageCall hash o op = some o')
    (hstays : StaysInStorage o') : StorageFits hash o op := by
  obtain ⟨map, f, rfl, h⟩ := ho
  obtain ⟨map', rfl, -⟩ := hstays
  have hstep : storageStep hash map op = some map' := Option.some.inj hcall
  refine ⟨map, rfl, ?_⟩
  cases op with
  | set key value =>
      intro bucket hbucket
      by_contra hfull
      rw [storageStep, hashmapSet_full hbucket hfull] at hstep
      cases hstep
  | get key => trivial
  | delete key =>
      cases hbucket : map.buckets.get (bucketIndex hash key) with
      | none =>
          rw [storageStep, hashmapDelete_missing hbucket] at hstep
          cases hstep
      | some bucket => exact ⟨bucket, hbucket⟩

/-- Whatever the hash, the calls stay in the storage exactly as long as they
fit. -/
theorem staysInStorage_iff_fits (hash : K → BitVec 32) (ops : List (HashmapOp K)) :
    Throughout (storageCall hash) StaysInStorage (some hashmapCreate) ops ↔
      EachStep (storageCall hash) (StorageFits hash) (some hashmapCreate) ops := by
  have hstep (u : Option (Hashmap K)) (e : HashmapOp K) (v : Option (Hashmap K))
      (hu : KeepsEntries hash u) (hC : StorageFits hash u e) (hv : storageCall hash u e = some v) :
      KeepsEntries hash v := hu.call hC hv
  have hstart : KeepsEntries hash (some (hashmapCreate : Hashmap K)) :=
    ⟨_, fun _ => [], rfl, hasEntries_create⟩
  exact throughout_iff_eachStep_of_kept hstep (fun _ _ _ hu hv hstays => hu.fits hv hstays)
    (fun _ hu => hu.staysInStorage) hstart ops

end

/-- A map of strings stays in its storage exactly as long as a key is set where
its bucket has fewer than ten nodes, and deleted where it has a bucket. -/
theorem staysInStorage_iff (charSigned : Bool) (ops : List (HashmapOp CString)) :
    Throughout (storageCall (strHashFn charSigned)) StaysInStorage (some hashmapCreate) ops ↔
      EachStep (storageCall (strHashFn charSigned)) (StorageFits (strHashFn charSigned))
        (some hashmapCreate) ops :=
  staysInStorage_iff_fits (strHashFn charSigned) ops

/-- A key that was never set is deleted, or one key is set eleven times. -/
theorem not_staysInStorage :
    ¬Throughout (storageCall (strHashFn false)) StaysInStorage (some hashmapCreate)
        [.delete keyA] ∧
      ¬Throughout (storageCall (strHashFn false)) StaysInStorage (some hashmapCreate)
        (List.replicate 11 (.set keyA 1)) := by
  have hlast : (runEvents (storageCall (strHashFn false)) (some hashmapCreate)
      (List.replicate 11 (.set keyA 1))).any Option.isNone = true := by decide
  refine ⟨fun h => ?_, fun h => ?_⟩
  · obtain ⟨map, hmap, -⟩ := (h.2 _ rfl).head
    cases hmap
  · cases hrun : runEvents (storageCall (strHashFn false)) (some hashmapCreate)
        (List.replicate 11 (.set keyA 1)) with
    | none =>
        rw [hrun] at hlast
        cases hlast
    | some o =>
        rw [hrun] at hlast
        obtain ⟨map, rfl, -⟩ := h.run hrun
        cases hlast

end RapidPatch.Store
