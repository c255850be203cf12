import RapidPatch.Hotpatch.PatchList

/-!
The bit filters in front of the list of dynamic patches.

A lookup first tests an address against a filter word, and searches the list
only if the address passes. `update_bits_filter` makes the two words from the
addresses in the list, and every operation that writes such an address calls
it before it returns, through `active_patch`. So in every reachable context
the addresses of all listed nodes pass (`Reachable.filtersCover`), and a
lookup finds what the search alone would find.
-/

namespace RapidPatch.Hotpatch

open RapidPatch.Support

variable {F : Type} {env : Env F} {s s' : PatchSys F} {l : List ℕ}

def PatchSys.findPatch (s : PatchSys F) (test : DynamicPatch → Bool) : Option ℕ :=
  (s.search test).2.map fun i => (s.node i).patch

/-- The addresses of every listed node pass the filters. -/
def FiltersCover (s : PatchSys F) : Prop :=
  ∀ e ∈ s.entries, Passes s.dbitsFilterBpkt e.instAddr ∧ Passes s.dbitsFilterPc e.pcAddr

theorem FiltersCover.of_nil (h : Lists s []) : FiltersCover s := by
  intro e he
  rw [h.entries] at he
  cases he

theorem FiltersCover.congr (h : FiltersCover s) (hnode : s'.node = s.node)
    (hcount : s'.nodeCount = s.nodeCount) (hbpkt : s'.dbitsFilterBpkt = s.dbitsFilterBpkt)
    (hpc : s'.dbitsFilterPc = s.dbitsFilterPc) : FiltersCover s' := by
  have hnext : s'.next = s.next := by
    unfold PatchSys.next
    rw [hnode]
  have hentries : s'.entries = s.entries := by
    simp only [PatchSys.entries, PatchSys.entriesOf, PatchSys.search, hnext, hnode, hcount]
  rw [FiltersCover, hentries, hbpkt, hpc]
  exact h

/-- `update_bits_filter` makes both words from the list. -/
theorem updateBitsFilter_filters (h : updateBitsFilter env s = some s') :
    s'.node = s.node ∧ s'.nodeCount = s.nodeCount ∧
      s'.dbitsFilterBpkt = orAll (s.entries.map (·.instAddr)) ∧
      s'.dbitsFilterPc = orAll (s.entries.map (·.pcAddr)) := by
  simp only [updateBitsFilter, Option.bind_eq_bind, Option.bind_eq_some_iff] at h
  obtain ⟨fixed, -, hs'⟩ := h
  cases hs'
  refine ⟨rfl, rfl, ?_, ?_⟩
  · rw [orAll, PatchSys.entries, PatchSys.entriesOf, List.map_map, List.foldl_map]
    rfl
  · rw [orAll, PatchSys.entries, PatchSys.entriesOf, List.map_map, List.foldl_map]
    rfl

theorem updateBitsFilter_cover (h : updateBitsFilter env s = some s') : FiltersCover s' := by
  obtain ⟨hnode, hcount, hbpkt, hpc⟩ := updateBitsFilter_filters h
  have hcover : FiltersCover { s with
      dbitsFilterBpkt := orAll (s.entries.map (·.instAddr))
      dbitsFilterPc := orAll (s.entries.map (·.pcAddr)) } := by
    intro e he
    exact ⟨passes_orAll (List.mem_map_of_mem he), passes_orAll (List.mem_map_of_mem he)⟩
  exact hcover.congr hnode hcount hbpkt hpc

/-- Whatever was written before, the filters are right once `active_patch`
returns. -/
theorem activePatch_cover {p : ℕ} (h : activePatch env s p = some s') : FiltersCover s' := by
  simp only [activePatch, Option.bind_eq_bind, Option.bind_eq_some_iff] at h
  obtain ⟨t, ht, hs'⟩ := h
  cases hs'
  refine (updateBitsFilter_cover ht).congr ?_ ?_ ?_ ?_ <;> split <;> rfl

theorem Reachable.filtersCover (h : Reachable env s) : FiltersCover s :=
  h.of_activation (fun _ hnext _ => .of_nil (.nil hnext)) (fun _ _ _ ht => activePatch_cover ht)
    (fun _ _ _ ht => ht.congr rfl rfl rfl rfl) (fun _ _ ht => ht.congr rfl rfl rfl rfl)

/-- A search that succeeds ends at a listed node that passes its test. -/
theorem Lists.findPatch_eq_some (h : Lists s l) {test : DynamicPatch → Bool} {p : ℕ}
    (hp : s.findPatch test = some p) :
    ∃ i, (s.node i).entry ∈ s.entries ∧ test (s.node i) = true ∧ (s.node i).patch = p := by
  rw [PatchSys.findPatch, h.search] at hp
  obtain ⟨i, hi, hpatch⟩ := Option.map_eq_some_iff.mp hp
  have htest : test (s.node i) = true := List.find?_some (p := fun i => test (s.node i)) hi
  refine ⟨i, ?_, htest, hpatch⟩
  rw [h.entries]
  exact List.mem_map_of_mem (List.mem_of_find?_eq_some hi)

/-- A filter that lets through whatever the search would find is no loss. -/
theorem filtered_eq {o : Option ℕ} {c : Prop} [Decidable c] (h : ∀ p, o = some p → c) :
    (if c then o else none) = o := by
  split
  · rfl
  · cases o with
    | none => rfl
    | some p => exact absurd (h p rfl) ‹_›

/-- Each of the three lookups returns what a search of the list without the
filters returns. -/
theorem lookups_eq_findPatch (env : Env F) (s : PatchSys F) (hs : Reachable env s)
    (loc : BitVec 32) :
    getDynamicPatchByBpkt s loc =
        s.findPatch (fun dp => dp.instAddr = loc && (s.patch dp.patch).isActive) ∧
      getDynamicPatchByPc s loc =
        s.findPatch (fun dp => dp.pcAddr = loc && (s.patch dp.patch).isActive) ∧
      getDynamicPatchByFpb s loc =
        s.findPatch (fun dp => (dp.instAddr = loc || dp.instAddr = loc &&& ~~~0x1#32) &&
          (s.patch dp.patch).isActive) := by
  obtain ⟨l, hl⟩ := hs.lists
  have hcover := hs.filtersCover
  refine ⟨?_, ?_, ?_⟩
  · unfold getDynamicPatchByBpkt
    rw [ite_not]
    refine filtered_eq fun p hp => ?_
    obtain ⟨i, hi, htest, -⟩ := hl.findPatch_eq_some hp
    simp only [Bool.and_eq_true, decide_eq_true_eq] at htest
    have hpass := (hcover _ hi).1
    rwa [DynamicPatch.entry, htest.1] at hpass
  · unfold getDynamicPatchByPc
    rw [ite_not]
    refine filtered_eq fun p hp => ?_
    obtain ⟨i, hi, htest, -⟩ := hl.findPatch_eq_some hp
    simp only [Bool.and_eq_true, decide_eq_true_eq] at htest
    have hpass := (hcover _ hi).2
    rwa [DynamicPatch.entry, htest.1] at hpass
  · unfold getDynamicPatchByFpb
    refine filtered_eq fun p hp => ?_
    obtain ⟨i, hi, htest, -⟩ := hl.findPatch_eq_some hp
    simp only [Bool.and_eq_true, Bool.or_eq_true, decide_eq_true_eq] at htest
    have hpass := (hcover _ hi).1
    -- the node has one of the two addresses, and that one passes
    rcases htest.1 with haddr | haddr
    · left
      rwa [DynamicPatch.entry, haddr] at hpass
    · right
      rwa [DynamicPatch.entry, haddr] at hpass

/-- With patches at `0x08000100` and `0x08000200` listed, the second one is
found, and the search alone finds it. -/
theorem second_patch_found :
    getDynamicPatchByBpkt (contextAfter [1, 2]) 0x08000200 = some 2 ∧
      (contextAfter [1, 2]).findPatch (fun dp => dp.instAddr = 0x08000200 &&
        ((contextAfter [1, 2]).patch dp.patch).isActive) = some 2 := by
  have hrun := installed_eq_contextAfter [1, 2] (by decide)
  have hfound : getDynamicPatchByBpkt (contextAfter [1, 2]) 0x08000200 = some 2 := by decide
  exact ⟨hfound,
    (lookups_eq_findPatch listEnv _ (installed_reachable hrun) 0x08000200).1 ▸ hfound⟩

end RapidPatch.Hotpatch
