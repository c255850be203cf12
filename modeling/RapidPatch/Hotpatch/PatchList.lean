import Mathlib.Data.List.Perm.Subperm
import Mathlib.Data.List.TakeWhile
import RapidPatch.Hotpatch.Context
import RapidPatch.Support.Align
import RapidPatch.Support.BitFilter

/-!
The list of dynamic patches, as a list.

`Lists s l` says that the nodes behind `pctx.dpatch_list` are `l`, and holds
for some `l` in every reachable context (`Reachable.lists`). In terms of the
`Entry`s of these nodes, `add_dynamic_patch_to_ctx` is `addEntry`: behind the
last entry, or in the place of the first entry with the same address, where
it also drops all entries behind that one. So installing a patch can hide
another one, exactly when a patch for the same address is listed in front of
it (`notifyNewPatch_keeps_iff`).
-/

namespace RapidPatch.Hotpatch

open RapidPatch.Support

structure Entry where
  patch : ℕ
  instAddr : BitVec 32
  pcAddr : BitVec 32

def DynamicPatch.entry (dp : DynamicPatch) : Entry where
  patch := dp.patch
  instAddr := dp.instAddr
  pcAddr := dp.pcAddr

/-- The effect of `add_dynamic_patch_to_ctx` for a descriptor's address. -/
def addEntry (es : List Entry) (addr : BitVec 32) (e : Entry) : List Entry :=
  let passed := es.takeWhile (·.instAddr ≠ addr)
  if es.any (·.instAddr = addr) then passed ++ [e]
  else if es.length > maxDpNum then es.dropLast ++ [e]
  else es ++ [e]

theorem addEntry_of_split {a b : List Entry} {x : Entry} {addr : BitVec 32}
    (ha : ∀ y ∈ a, y.instAddr ≠ addr) (hx : x.instAddr = addr) (e : Entry) :
    addEntry (a ++ x :: b) addr e = a ++ [e] := by
  have hpassed : (a ++ x :: b).takeWhile (·.instAddr ≠ addr) = a := by
    rw [List.takeWhile_append_of_pos (by simpa using ha)]
    simp [hx]
  rw [addEntry, hpassed, if_pos (by simp [hx])]

theorem addEntry_of_forall_ne {es : List Entry} {addr : BitVec 32}
    (hes : ∀ y ∈ es, y.instAddr ≠ addr) (e : Entry) :
    addEntry es addr e = if es.length > maxDpNum then es.dropLast ++ [e] else es ++ [e] := by
  rw [addEntry, if_neg (by simpa using hes)]

/-- The entries that stay in front of the new one. -/
def keptEntries (es : List Entry) (addr : BitVec 32) : List Entry :=
  if es.any (·.instAddr = addr) then es.takeWhile (·.instAddr ≠ addr)
  else if es.length > maxDpNum then es.dropLast
  else es

theorem addEntry_eq (es : List Entry) (addr : BitVec 32) (e : Entry) :
    addEntry es addr e = keptEntries es addr ++ [e] := by
  unfold addEntry keptEntries
  split
  · rfl
  · split <;> rfl

theorem keptEntries_initial (es : List Entry) (addr : BitVec 32) : keptEntries es addr <+: es := by
  unfold keptEntries
  split
  · exact List.takeWhile_prefix _
  · split
    · exact List.dropLast_prefix es
    · exact List.prefix_refl es

theorem keptEntries_ne {es : List Entry} {addr : BitVec 32} :
    ∀ y ∈ keptEntries es addr, y.instAddr ≠ addr := by
  intro y hy
  by_cases hany : es.any (·.instAddr = addr) = true
  · rw [keptEntries, if_pos hany] at hy
    simpa using List.mem_takeWhile_imp hy
  · have hmem : y ∈ es := (keptEntries_initial es addr).subset hy
    simp only [List.any_eq_true, decide_eq_true_eq, not_exists, not_and] at hany
    exact hany y hmem

/-- The entries in front of the address, and some behind them, stay. -/
theorem addEntry_keeps {a b : List Entry} {addr : BitVec 32} (ha : ∀ y ∈ a, y.instAddr ≠ addr)
    (hroom : (a ++ b).length ≤ maxDpNum) (e : Entry) : ∃ c, addEntry (a ++ b) addr e = a ++ c := by
  cases hfind : b.find? (·.instAddr = addr) with
  | some x =>
      obtain ⟨hx, b₁, b₂, rfl, hb₁⟩ := List.find?_eq_some_iff_append.mp hfind
      refine ⟨b₁ ++ [e], ?_⟩
      rw [← List.append_assoc, addEntry_of_split ?_ (by simpa using hx), List.append_assoc]
      intro y hy
      rcases List.mem_append.mp hy with hy | hy
      · exact ha y hy
      · simpa using hb₁ y hy
  | none =>
      refine ⟨b ++ [e], ?_⟩
      rw [addEntry_of_forall_ne, if_neg (by omega), List.append_assoc]
      intro y hy
      rcases List.mem_append.mp hy with hy | hy
      · exact ha y hy
      · simpa using List.find?_eq_none.mp hfind y hy

theorem addEntry_drops {a b : List Entry} {x : Entry} {addr : BitVec 32} (hx : x ∈ a)
    (haddr : x.instAddr = addr) (e : Entry) :
    ∃ c, c ⊆ a ∧ addEntry (a ++ b) addr e = c ++ [e] := by
  cases hfind : a.find? (·.instAddr = addr) with
  | some y =>
      obtain ⟨hy, a₁, a₂, rfl, ha₁⟩ := List.find?_eq_some_iff_append.mp hfind
      refine ⟨a₁, List.subset_append_left _ _, ?_⟩
      rw [List.append_assoc]
      exact addEntry_of_split (by simpa using ha₁) (by simpa using hy) e
  | none => exact absurd haddr (by simpa using List.find?_eq_none.mp hfind x hx)

variable {F : Type} {env : Env F} {s s' : PatchSys F} {l : List ℕ}

@[simp] theorem setNode_node_self (s : PatchSys F) (i : ℕ) (dp : DynamicPatch) :
    (s.setNode i dp).node i = dp := Function.update_self _ _ _

theorem setNode_node_of_ne {i j : ℕ} (h : j ≠ i) (s : PatchSys F) (dp : DynamicPatch) :
    (s.setNode i dp).node j = s.node j := Function.update_of_ne h _ _

theorem setNode_next (s : PatchSys F) (i : ℕ) (dp : DynamicPatch) :
    (s.setNode i dp).next = Function.update s.next i dp.next := by
  funext j
  by_cases h : j = i
  · subst h
    simp [PatchSys.next]
  · rw [PatchSys.next, setNode_node_of_ne h, Function.update_of_ne h]
    rfl

/-- The nodes of the list. Each is allocated and so is its patch, and there
are none while there is no table of fixed patches. -/
structure Lists (s : PatchSys F) (l : List ℕ) : Prop where
  chain : Chain s.next (some 0) (0 :: l)
  allocated : ∀ i ∈ l, i ≤ s.nodeCount
  patches : ∀ i ∈ l, (s.node i).patch ≤ s.patchCount
  fixed : s.fixedPatches = none → l = []

def PatchSys.entriesOf (s : PatchSys F) (l : List ℕ) : List Entry := l.map fun i => (s.node i).entry

/-- The entries of the list, as a loop over it finds them. -/
def PatchSys.entries (s : PatchSys F) : List Entry := s.entriesOf (s.search fun _ => false).1

namespace Lists

theorem length_le (h : Lists s l) : l.length ≤ s.nodeCount := by
  have hsub : 0 :: l ⊆ List.range (s.nodeCount + 1) := by
    intro i hi
    rw [List.mem_range]
    rcases List.mem_cons.mp hi with rfl | hi
    · omega
    · have := h.allocated i hi
      omega
  have hlen := (h.chain.nodup.subperm hsub).length_le
  rw [List.length_range, List.length_cons] at hlen
  omega

theorem tail (h : Lists s l) : Chain s.next (s.next 0) l := by
  cases h.chain with
  | cons h => exact h

/-- The loops of the source go through the list. -/
theorem search (h : Lists s l) (stop : DynamicPatch → Bool) :
    s.search stop = (l.takeWhile fun i => !stop (s.node i), l.find? fun i => stop (s.node i)) :=
  walk_eq _ h.tail (Nat.lt_succ_of_le h.length_le)

theorem search_all (h : Lists s l) : (s.search fun _ => false).1 = l := by
  rw [h.search]
  exact List.takeWhile_eq_self_iff.mpr fun _ _ => rfl

theorem entries (h : Lists s l) : s.entries = s.entriesOf l := by
  rw [PatchSys.entries, h.search_all]

theorem patch_le (h : Lists s l) {e : Entry} (he : e ∈ s.entriesOf l) : e.patch ≤ s.patchCount := by
  obtain ⟨i, hi, rfl⟩ := List.mem_map.mp he
  exact h.patches i hi

theorem unique {l' : List ℕ} (h : Lists s l) (h' : Lists s l') : l = l' := h.tail.unique h'.tail

/-- What else is in the state does not matter, and objects may be allocated. -/
theorem congr (h : Lists s l) (hnode : s'.node = s.node) (hnodes : s.nodeCount ≤ s'.nodeCount)
    (hpatches : s.patchCount ≤ s'.patchCount)
    (hfixed : s'.fixedPatches = none → s.fixedPatches = none) : Lists s' l := by
  have hnext : s'.next = s.next := by
    unfold PatchSys.next
    rw [hnode]
  refine ⟨hnext ▸ h.chain, fun i hi => ?_, fun i hi => ?_, fun hnone => h.fixed (hfixed hnone)⟩
  · exact (h.allocated i hi).trans hnodes
  · rw [hnode]
    exact (h.patches i hi).trans hpatches

/-- Overwriting a node cuts the list behind it. -/
theorem replace {a b : List ℕ} {i : ℕ} (h : Lists s (a ++ i :: b)) {dp : DynamicPatch}
    (hnext : dp.next = none) (hpatch : dp.patch ≤ s.patchCount) :
    Lists (s.setNode i dp) (a ++ [i]) ∧
      (s.setNode i dp).entriesOf (a ++ [i]) = s.entriesOf a ++ [dp.entry] := by
  have hother : ∀ j ∈ a, (s.setNode i dp).node j = s.node j := by
    intro j hj
    apply setNode_node_of_ne
    rintro rfl
    exact (List.nodup_append.mp (List.nodup_cons.mp h.chain.nodup).2).2.2 j hj j (by simp) rfl
  refine ⟨⟨?_, ?_, ?_, ?_⟩, ?_⟩
  · rw [setNode_next, hnext]
    exact Chain.update_of_mem (a := 0 :: a) h.chain .nil
  · intro j hj
    apply h.allocated
    rcases List.mem_append.mp hj with hj | hj
    · simp [hj]
    · simp [List.mem_singleton.mp hj]
  · intro j hj
    rcases List.mem_append.mp hj with hj | hj
    · rw [hother j hj]
      exact h.patches j (by simp [hj])
    · rw [List.mem_singleton.mp hj, setNode_node_self]
      exact hpatch
  · intro hnone
    simpa using h.fixed hnone
  · rw [PatchSys.entriesOf, PatchSys.entriesOf, List.map_append, List.map_singleton,
      setNode_node_self]
    congr 1
    exact List.map_congr_left fun j hj => by rw [hother j hj]

theorem append (h : Lists s l) (hfixed : s.fixedPatches ≠ none) {dp : DynamicPatch}
    (hnext : dp.next = none) (hpatch : dp.patch ≤ s.patchCount) {t j : ℕ}
    (ht : t = l.getLastD 0) (hj : j = s.nodeCount + 1) :
    let s' := ({ s with nodeCount := j }.setNode t { s.node t with next := some j }).setNode j dp
    Lists s' (l ++ [j]) ∧ s'.entriesOf (l ++ [j]) = s.entriesOf l ++ [dp.entry] := by
  intro s'
  have hnew : j ∉ 0 :: l := by
    intro hmem
    rcases List.mem_cons.mp hmem with h0 | hmem
    · omega
    · have := h.allocated j hmem
      omega
  have hlast : ∃ a, 0 :: l = a ++ [t] := by
    refine ⟨(0 :: l).dropLast, ?_⟩
    rw [ht, ← List.getLast_eq_getLastD (List.cons_ne_nil 0 l),
      List.dropLast_append_getLast (List.cons_ne_nil 0 l)]
  obtain ⟨a, ha⟩ := hlast
  have htmem : t ∈ 0 :: l := by simp [ha]
  have htj : t ≠ j := fun heq => hnew (heq ▸ htmem)
  have hother : ∀ i ∈ l, (s'.node i).entry = (s.node i).entry := by
    intro i hi
    have hij : i ≠ j := fun heq => hnew (by simp [← heq, hi])
    rw [setNode_node_of_ne hij]
    by_cases hit : i = t
    · rw [hit, setNode_node_self]
      rfl
    · rw [setNode_node_of_ne hit]
  refine ⟨⟨?_, ?_, ?_, ?_⟩, ?_⟩
  · -- as if the new node were cleared first, and the last one linked to it then
    have hlinks : s'.next = Function.update (Function.update s.next j none) t (some j) := by
      rw [setNode_next, setNode_next, hnext, Function.update_comm htj]
      rfl
    have hchain := h.chain.update_of_notMem hnew none
    rw [ha] at hchain
    have hend :
        Chain (Function.update (Function.update s.next j none) t (some j)) (some j) [j] := by
      refine .cons ?_
      rw [Function.update_of_ne htj.symm, Function.update_self]
      exact .nil
    have hall := hchain.update_of_mem hend
    rw [hlinks, ← List.cons_append, ha, List.append_assoc]
    exact hall
  · intro i hi
    show i ≤ j
    rcases List.mem_append.mp hi with hi | hi
    · have := h.allocated i hi
      omega
    · rw [List.mem_singleton.mp hi]
  · intro i hi
    show (s'.node i).entry.patch ≤ s.patchCount
    rcases List.mem_append.mp hi with hi | hi
    · rw [hother i hi]
      exact h.patches i hi
    · rw [List.mem_singleton.mp hi, setNode_node_self]
      exact hpatch
  · exact fun hnone => absurd hnone hfixed
  · rw [PatchSys.entriesOf, PatchSys.entriesOf, List.map_append, List.map_singleton,
      setNode_node_self]
    congr 1
    exact List.map_congr_left hother

end Lists

/-! ### The operations on the list -/

/-- The entry that installing the patch `p` for an address makes. -/
def newEntry (env : Env F) (addr : BitVec 32) (p : ℕ) : Entry where
  patch := p
  instAddr := calcBpktAddr addr
  pcAddr := calcBpktPc env (calcBpktAddr addr)

/-- Two states that differ in the list at most. -/
structure SameBut (s s' : PatchSys F) : Prop where
  patch : s'.patch = s.patch
  patchCount : s'.patchCount = s.patchCount
  desc : s'.desc = s.desc
  fixedPatches : s'.fixedPatches = s.fixedPatches

theorem addDynamicPatchToCtx_same (s : PatchSys F) (p : ℕ) :
    SameBut s (addDynamicPatchToCtx env s p).1 := by
  simp only [addDynamicPatchToCtx]
  split
  · exact ⟨rfl, rfl, rfl, rfl⟩
  · split <;> exact ⟨rfl, rfl, rfl, rfl⟩

/-- `add_dynamic_patch_to_ctx` acts on the list as `addEntry`. -/
theorem addDynamicPatchToCtx_lists (env : Env F) (h : Lists s l)
    (hfixed : s.fixedPatches ≠ none) {p : ℕ} (hp : p ≤ s.patchCount)
    {addr : BitVec 32} (haddr : addr = (s.desc (s.patch p).desc).addr) :
    ∃ l', Lists (addDynamicPatchToCtx env s p).1 l' ∧
      (addDynamicPatchToCtx env s p).1.entriesOf l' =
        addEntry (s.entriesOf l) addr (newEntry env addr p) := by
  subst haddr
  simp only [addDynamicPatchToCtx, h.search]
  cases hfind : l.find? fun i => (s.node i).instAddr = (s.desc (s.patch p).desc).addr with
  | some i =>
      obtain ⟨hi, a, b, rfl, ha⟩ := List.find?_eq_some_iff_append.mp hfind
      have hsplit : addEntry (s.entriesOf (a ++ i :: b)) (s.desc (s.patch p).desc).addr
          (newEntry env (s.desc (s.patch p).desc).addr p) =
            s.entriesOf a ++ [newEntry env (s.desc (s.patch p).desc).addr p] := by
        rw [PatchSys.entriesOf, List.map_append, List.map_cons]
        refine addEntry_of_split ?_ (by simpa [DynamicPatch.entry] using hi) _
        simpa [DynamicPatch.entry] using ha
      rw [hsplit]
      exact ⟨a ++ [i], h.replace rfl hp⟩
  | none =>
      have hne : ∀ y ∈ s.entriesOf l, y.instAddr ≠ (s.desc (s.patch p).desc).addr := by
        simpa [PatchSys.entriesOf, DynamicPatch.entry] using List.find?_eq_none.mp hfind
      have hpassed : (l.takeWhile fun i =>
          !decide ((s.node i).instAddr = (s.desc (s.patch p).desc).addr)) = l :=
        List.takeWhile_eq_self_iff.mpr (by simpa using List.find?_eq_none.mp hfind)
      have hlen : (s.entriesOf l).length = l.length := List.length_map _
      rw [addEntry_of_forall_ne hne, hlen, hpassed]
      by_cases hfull : l.length > maxDpNum
      · rw [if_pos hfull, if_pos hfull]
        obtain ⟨a, t, rfl⟩ : ∃ a t, l = a ++ [t] := by
          rcases List.eq_nil_or_concat' l with rfl | ⟨a, t, rfl⟩
          · cases hfull
          · exact ⟨a, t, rfl⟩
        rw [List.getLastD_concat]
        refine ⟨a ++ [t], ?_⟩
        have hdrop : (s.entriesOf (a ++ [t])).dropLast = s.entriesOf a := by
          simp [PatchSys.entriesOf]
        rw [hdrop]
        exact h.replace rfl hp
      · rw [if_neg hfull, if_neg hfull]
        exact ⟨l ++ [s.nodeCount + 1], h.append hfixed rfl hp rfl rfl⟩

/-! ### Activation -/

def filterBits (es : List Entry) : BitVec 32 := es.foldl (fun bits e => bits ||| e.instAddr) 0

/-- What `active_patch` does, as far as dynamic patches go. -/
structure Activates (s : PatchSys F) (p : ℕ) (s' : PatchSys F) : Prop where
  node : s'.node = s.node
  nodeCount : s'.nodeCount = s.nodeCount
  patchCount : s'.patchCount = s.patchCount
  fixedPatches : s'.fixedPatches = s.fixedPatches
  patch : s'.patch = Function.update s.patch p { s.patch p with isActive := true }
  filter : s'.dbitsFilterBpkt = filterBits s.entries

theorem activePatch_activates {p : ℕ} (h : activePatch env s p = some s') :
    s.fixedPatches ≠ none ∧ Activates s p s' := by
  cases hfixed : s.fixedPatches with
  | none => simp [activePatch, updateBitsFilter, hfixed] at h
  | some fixed =>
      simp only [activePatch, updateBitsFilter, hfixed, Option.pure_def, Option.bind_eq_bind,
        Option.bind_some, Option.some.injEq] at h
      subst h
      have hbits : filterBits s.entries =
          (s.search fun _ => false).1.foldl (fun bits i => bits ||| (s.node i).instAddr) 0 := by
        rw [filterBits, PatchSys.entries, PatchSys.entriesOf, List.foldl_map]
        rfl
      refine ⟨by simp, ?_⟩
      constructor <;> split <;> first | rfl | exact hfixed.symm | exact hbits.symm

theorem activePatch_isSome (env : Env F) (hfixed : s.fixedPatches ≠ none) (p : ℕ) :
    ∃ s', activePatch env s p = some s' := by
  obtain ⟨fixed, hfixed⟩ := Option.ne_none_iff_exists'.mp hfixed
  simp [activePatch, updateBitsFilter, hfixed]

theorem Activates.lists {p : ℕ} (ha : Activates s p s') (h : Lists s l) : Lists s' l :=
  h.congr ha.node ha.nodeCount.ge ha.patchCount.ge (by rw [ha.fixedPatches]; exact id)

theorem Activates.entriesOf {p : ℕ} (ha : Activates s p s') : s'.entriesOf = s.entriesOf := by
  unfold PatchSys.entriesOf
  rw [ha.node]

/-! ### Reachable contexts -/

theorem Lists.nil (h : s.next 0 = none) : Lists s [] := by
  refine ⟨.cons ?_, by simp, by simp, fun _ => rfl⟩
  rw [h]
  exact .nil

theorem Lists.ebpfPatchSetup (h : Lists s l) (d : ℕ) : Lists (ebpfPatchSetup s d).1 l :=
  h.congr rfl le_rfl (Nat.le_succ _) id

theorem addFixedPatchToCtx_lists {p : ℕ} (h : Lists s l)
    (hs : addFixedPatchToCtx env s p = some s') : Lists s' l := by
  simp only [addFixedPatchToCtx, Option.bind_eq_bind, Option.bind_eq_some_iff] at hs
  obtain ⟨fixed, hfixed, heq⟩ := hs
  cases heq
  exact h.congr rfl le_rfl le_rfl (by simp)

theorem Lists.setNode {i : ℕ} {dp : DynamicPatch} (h : Lists s l)
    (hnext : dp.next = (s.node i).next) (hpatch : dp.patch = (s.node i).patch) :
    Lists (s.setNode i dp) l := by
  have hlinks : (s.setNode i dp).next = s.next := by
    rw [setNode_next, hnext]
    exact Function.update_eq_self i s.next
  refine ⟨hlinks ▸ h.chain, h.allocated, fun j hj => ?_, h.fixed⟩
  by_cases hji : j = i
  · subst hji
    rw [setNode_node_self, hpatch]
    exact h.patches j hj
  · rw [setNode_node_of_ne hji]
    exact h.patches j hj

theorem Lists.install {p : ℕ} (h : Lists s l) (hp : p ≤ s.patchCount) {addr : BitVec 32}
    (haddr : addr = (s.desc (s.patch p).desc).addr)
    (hs : activePatch env (addDynamicPatchToCtx env s p).1 p = some s') :
    s'.patch = Function.update s.patch p { s.patch p with isActive := true } ∧
      ∃ l', Lists s' l' ∧
        s'.entriesOf l' = addEntry (s.entriesOf l) addr (newEntry env addr p) ∧
        s'.dbitsFilterBpkt = filterBits (s'.entriesOf l') := by
  have hsame : SameBut s (addDynamicPatchToCtx env s p).1 := addDynamicPatchToCtx_same s p
  obtain ⟨hfixed, ha⟩ := activePatch_activates hs
  rw [hsame.fixedPatches] at hfixed
  obtain ⟨l', hl', hentries⟩ := addDynamicPatchToCtx_lists env h hfixed hp haddr
  refine ⟨by rw [ha.patch, hsame.patch], l', ha.lists hl', ?_, ?_⟩
  · rw [ha.entriesOf, hentries]
  · rw [ha.filter, ha.entriesOf, hl'.entries]

/-- What `init_patch_sys` makes of a context that is not initialised. -/
structure Initialised (env : Env F) (s : PatchSys F) : Prop where
  ctxInit : s.ctxInit = true
  next : s.next 0 = none
  fixedPatches : s.fixedPatches = some env.arraymapNew
  dbitsFilterBpkt : s.dbitsFilterBpkt = 0
  fbitsFilter : env.arraymapVals env.arraymapNew = [] → s.fbitsFilter = 0

theorem initPatchSys_initialised (hinit : s.ctxInit = false) (hs : initPatchSys env s = some s') :
    Initialised env s' := by
  simp only [initPatchSys, hinit, Bool.false_eq_true, if_false, updateBitsFilter, Option.pure_def,
    Option.bind_eq_bind, Option.bind_some, Option.some.injEq] at hs
  subst hs
  refine ⟨rfl, by simp [PatchSys.next, PatchSys.setNode], rfl, ?_, fun hvals => ?_⟩
  · simp [PatchSys.search, PatchSys.next, PatchSys.setNode, walk]
  · simp [hvals]

theorem initPatchSys_cases (hs : initPatchSys env s = some s') : s' = s ∨ Initialised env s' := by
  cases hinit : s.ctxInit with
  | true =>
      rw [initPatchSys, if_pos hinit] at hs
      exact .inl (Option.some.inj hs).symm
  | false => exact .inr (initPatchSys_initialised hinit hs)

/-- The state in which `notify_new_patch` adds a dynamic patch: the patch is
allocated and its address aligned. -/
def prepared (s : PatchSys F) (d : ℕ) : PatchSys F :=
  { (ebpfPatchSetup s d).1 with
    desc := Function.update s.desc d { s.desc d with addr := (s.desc d).addr &&& ~~~0x3#32 } }

theorem lists_prepared (h : Lists s l) (d : ℕ) : Lists (prepared s d) l :=
  (h.ebpfPatchSetup d).congr rfl le_rfl le_rfl id

theorem prepared_desc (s : PatchSys F) (d : ℕ) :
    ((prepared s d).patch (prepared s d).patchCount).desc = d := by
  simp [prepared, ebpfPatchSetup]

theorem prepared_addr (s : PatchSys F) (d : ℕ) :
    ((prepared s d).desc ((prepared s d).patch (prepared s d).patchCount).desc).addr =
      (s.desc d).addr &&& ~~~0x3#32 := by
  rw [prepared_desc]
  simp [prepared]

theorem notifyNewPatch_dynamic {d : ℕ} (htype : (s.desc d).type = dynamicPatchPoint) :
    notifyNewPatch env s d =
      activePatch env (addDynamicPatchToCtx env (prepared s d) (s.patchCount + 1)).1
        (s.patchCount + 1) := by
  have hfixed : (s.desc d).type ≠ fixedPatchPoint := by
    rw [htype]
    decide
  have hadd : addEbpfPatch env s d =
      some ((addDynamicPatchToCtx env (prepared s d) (s.patchCount + 1)).1, s.patchCount + 1) := by
    unfold addEbpfPatch
    exact (if_neg hfixed).trans (if_pos htype)
  rw [notifyNewPatch, hadd]
  rfl

theorem notifyNewPatch_lists {d : ℕ} (h : Lists s l) (hs : notifyNewPatch env s d = some s') :
    ∃ l', Lists s' l' := by
  by_cases hdynamic : (s.desc d).type = dynamicPatchPoint
  · rw [notifyNewPatch_dynamic hdynamic] at hs
    obtain ⟨-, l', hl', -⟩ := (lists_prepared h d).install le_rfl rfl hs
    exact ⟨l', hl'⟩
  · simp only [notifyNewPatch, Option.bind_eq_bind, Option.bind_eq_some_iff] at hs
    obtain ⟨⟨t, p⟩, ht, hs⟩ := hs
    have hsetup := h.ebpfPatchSetup d
    have hlists : Lists t l := by
      simp only [addEbpfPatch] at ht
      split at ht
      · obtain ⟨u, hu, heq⟩ := Option.map_eq_some_iff.mp ht
        cases heq
        exact addFixedPatchToCtx_lists hsetup hu
      · split at ht
        · rename_i htype
          exact absurd htype hdynamic
        · cases ht
          exact hsetup
    exact ⟨l, (activePatch_activates hs).2.lists hlists⟩

theorem loadLocalPatchToCtx_lists {p : ℕ} (h : Lists s l) (hp : p ≤ s.patchCount)
    (hs : loadLocalPatchToCtx env s p = some s') : ∃ l', Lists s' l' := by
  simp only [loadLocalPatchToCtx] at hs
  split at hs
  · rw [Option.bind_eq_bind, Option.bind_eq_some_iff] at hs
    obtain ⟨t, ht, hs⟩ := hs
    exact ⟨l, (activePatch_activates hs).2.lists (addFixedPatchToCtx_lists h ht)⟩
  · split at hs
    · split at hs
      · obtain ⟨-, l', hl', -⟩ := h.install hp rfl hs
        exact ⟨l', hl'⟩
      · -- the node keeps its link and its patch
        rename_i i _
        exact ⟨l, (activePatch_activates hs).2.lists (h.setNode rfl rfl)⟩
    · cases hs
      exact ⟨l, h⟩

/-- In every reachable context the pointers make up a list. -/
theorem Reachable.lists (h : Reachable env s) : ∃ l, Lists s l := by
  induction h with
  | boot _ _ hnext => exact ⟨[], .nil hnext⟩
  | initPatchSys _ hs ih =>
      rcases initPatchSys_cases hs with rfl | hinit
      · exact ih
      · exact ⟨[], .nil hinit.next⟩
  | notifyNewPatch d _ hs ih =>
      obtain ⟨l, hl⟩ := ih
      exact notifyNewPatch_lists hl hs
  | loadLocalPatchToCtx p _ hp hs ih =>
      obtain ⟨l, hl⟩ := ih
      exact loadLocalPatchToCtx_lists hl hp.2 hs
  | destroyPatchContext _ ih =>
      exact ⟨[], .nil (by simp [PatchSys.next, Hotpatch.destroyPatchContext, PatchSys.setNode])⟩
  | writeDesc d desc _ ih =>
      obtain ⟨l, hl⟩ := ih
      exact ⟨l, hl.congr rfl le_rfl le_rfl id⟩
  | allocPatch d _ ih =>
      obtain ⟨l, hl⟩ := ih
      exact ⟨l, hl.ebpfPatchSetup d⟩

theorem notifyNewPatch_activated {d : ℕ} (hs : notifyNewPatch env s d = some s') :
    ∃ t p, activePatch env t p = some s' := by
  simp only [notifyNewPatch, Option.bind_eq_bind, Option.bind_eq_some_iff] at hs
  obtain ⟨⟨t, p⟩, -, hs⟩ := hs
  exact ⟨t, p, hs⟩

theorem loadLocalPatchToCtx_activated {p : ℕ} (hs : loadLocalPatchToCtx env s p = some s') :
    s' = s ∨ ∃ t, activePatch env t p = some s' := by
  simp only [loadLocalPatchToCtx] at hs
  split at hs
  · rw [Option.bind_eq_bind, Option.bind_eq_some_iff] at hs
    obtain ⟨t, -, hs⟩ := hs
    exact .inr ⟨t, hs⟩
  · split at hs
    · split at hs <;> exact .inr ⟨_, hs⟩
    · exact .inl (Option.some.inj hs).symm

/-- Every operation ends with `active_patch` or with an empty list: what these
establish holds in every reachable context. -/
theorem Reachable.of_activation {P : PatchSys F → Prop} (h : Reachable env s)
    (hempty : ∀ t : PatchSys F, t.next 0 = none → (t.ctxInit = true → t.fixedPatches ≠ none) → P t)
    (hactive : ∀ t p t', activePatch env t p = some t' → P t')
    (hdesc : ∀ t d desc, P t → P { t with desc := Function.update t.desc d desc })
    (halloc : ∀ t d, P t → P (Hotpatch.ebpfPatchSetup t d).1) : P s := by
  induction h with
  | boot hinit _ hnext => exact hempty _ hnext fun htrue => absurd htrue (by simp [hinit])
  | initPatchSys _ hs ih =>
      rcases initPatchSys_cases hs with rfl | hinit
      · exact ih
      · exact hempty _ hinit.next fun _ => by simp [hinit.fixedPatches]
  | notifyNewPatch d _ hs _ =>
      obtain ⟨t, p, ht⟩ := notifyNewPatch_activated hs
      exact hactive t p _ ht
  | loadLocalPatchToCtx p _ _ hs ih =>
      rcases loadLocalPatchToCtx_activated hs with rfl | ⟨t, ht⟩
      · exact ih
      · exact hactive t p _ ht
  | destroyPatchContext _ _ =>
      refine hempty _ ?_ fun htrue => by cases htrue
      simp [PatchSys.next, Hotpatch.destroyPatchContext, PatchSys.setNode]
  | writeDesc d desc _ ih => exact hdesc _ d desc ih
  | allocPatch d _ ih => exact halloc _ d ih

/-- The table of fixed patches is there as long as the context is. -/
theorem Reachable.fixedPatches_ne_none (h : Reachable env s) (hinit : s.ctxInit = true) :
    s.fixedPatches ≠ none := by
  refine h.of_activation (P := fun t => t.ctxInit = true → t.fixedPatches ≠ none)
    (fun _ _ hfixed => hfixed) ?_ (fun _ _ _ ht => ht) (fun _ _ ht => ht) hinit
  intro t p t' ht _
  obtain ⟨hne, hactivates⟩ := activePatch_activates ht
  rwa [hactivates.fixedPatches]

/-! ### Lookups -/

def isActiveAt (s : PatchSys F) (loc : BitVec 32) (e : Entry) : Bool :=
  e.instAddr = loc && (s.patch e.patch).isActive

theorem getDynamicPatchByBpkt_eq (h : Lists s l) (loc : BitVec 32) :
    getDynamicPatchByBpkt s loc =
      if s.dbitsFilterBpkt &&& loc ≠ loc then none
      else ((s.entriesOf l).find? (isActiveAt s loc)).map (·.patch) := by
  unfold getDynamicPatchByBpkt
  congr 1
  rw [h.search, PatchSys.entriesOf, List.find?_map, Option.map_map]
  rfl

theorem filterBits_eq_orAll (es : List Entry) : filterBits es = orAll (es.map (·.instAddr)) := by
  rw [filterBits, orAll, List.foldl_map]

theorem filterBits_covers {es : List Entry} {e : Entry} (he : e ∈ es) :
    filterBits es &&& e.instAddr = e.instAddr := by
  rw [filterBits_eq_orAll]
  exact passes_orAll (List.mem_map_of_mem he)

/-- The address a dynamic patch is listed for: that of its descriptor, rounded
down to a word by `add_ebpf_patch`. -/
def PatchSys.wordAddr (s : PatchSys F) (d : ℕ) : BitVec 32 := (s.desc d).addr &&& ~~~0x3#32

theorem wordAddr_of_aligned {d : ℕ} (h : (s.desc d).addr.toNat % 4 = 0) :
    s.wordAddr d = (s.desc d).addr := and_not_three_of_aligned h

/-- What `notify_new_patch` of a dynamic patch leaves behind. -/
structure NotifiedOf (env : Env F) (s : PatchSys F) (l : List ℕ) (d : ℕ) (s' : PatchSys F)
    (l' : List ℕ) : Prop where
  lists : Lists s' l'
  entries : s'.entriesOf l' =
    addEntry (s.entriesOf l) (s.wordAddr d) (newEntry env (s.wordAddr d) (s.patchCount + 1))
  filter : s'.dbitsFilterBpkt = filterBits (s'.entriesOf l')
  old : ∀ q ≤ s.patchCount, s'.patch q = s.patch q
  new : s'.patch (s.patchCount + 1) = { desc := d, isActive := true }
  patchCount : s'.patchCount = s.patchCount + 1
  desc : s'.desc = Function.update s.desc d { s.desc d with addr := s.wordAddr d }
  fixed : s'.fixedPatches ≠ none

theorem activePatch_desc {p : ℕ} (h : activePatch env s p = some s') : s'.desc = s.desc := by
  simp only [activePatch, updateBitsFilter, Option.bind_eq_bind, Option.bind_eq_some_iff] at h
  obtain ⟨t, ⟨fixed, -, ht⟩, hs'⟩ := h
  cases ht
  cases hs'
  split <;> rfl

theorem notifyNewPatch_notified (env : Env F) (h : Lists s l) (hfixed : s.fixedPatches ≠ none)
    {d : ℕ} (htype : (s.desc d).type = dynamicPatchPoint) :
    ∃ s' l', notifyNewPatch env s d = some s' ∧ NotifiedOf env s l d s' l' := by
  have hsame : SameBut (prepared s d)
      (addDynamicPatchToCtx env (prepared s d) (s.patchCount + 1)).1 :=
    addDynamicPatchToCtx_same _ _
  obtain ⟨s', hs'⟩ := activePatch_isSome env (hsame.fixedPatches ▸ hfixed) (s.patchCount + 1)
  have haddr : s.wordAddr d = ((prepared s d).desc
      ((prepared s d).patch (s.patchCount + 1)).desc).addr := (prepared_addr s d).symm
  obtain ⟨hpatch, l', hl', hentries, hfilter⟩ := (lists_prepared h d).install le_rfl haddr hs'
  obtain ⟨-, hactivates⟩ := activePatch_activates hs'
  refine ⟨s', l', ?_, hl', hentries, hfilter, ?_, ?_, ?_, ?_, ?_⟩
  · rw [notifyNewPatch_dynamic htype, hs']
  · intro q hq
    have hqne : q ≠ s.patchCount + 1 := by omega
    rw [hpatch]
    exact (Function.update_of_ne hqne _ _).trans (Function.update_of_ne hqne _ _)
  · rw [hpatch]
    simp [prepared, ebpfPatchSetup]
  · rw [hactivates.patchCount, hsame.patchCount]
    rfl
  · rw [activePatch_desc hs', hsame.desc]
    rfl
  · rw [hactivates.fixedPatches, hsame.fixedPatches]
    exact hfixed

/-- The entries in front of the active patch at an address. -/
def PatchSys.inFront (s : PatchSys F) (loc : BitVec 32) : List Entry :=
  s.entries.takeWhile (!isActiveAt s loc ·)

/-- Installing the patch of descriptor `d` leaves the patch `p` at `a` in
place. -/
def KeepsPatch (env : Env F) (s : PatchSys F) (d : ℕ) (a : BitVec 32) (p : ℕ) : Prop :=
  ∃ s', notifyNewPatch env s d = some s' ∧ getDynamicPatchByBpkt s' a = some p

theorem split_of_get (h : Lists s l) {a : BitVec 32} {p : ℕ}
    (hp : getDynamicPatchByBpkt s a = some p) :
    ∃ e rest, s.entriesOf l = s.inFront a ++ e :: rest ∧ isActiveAt s a e = true ∧ e.patch = p ∧
      ∀ x ∈ s.inFront a, isActiveAt s a x = false := by
  rw [getDynamicPatchByBpkt_eq h] at hp
  split at hp
  · cases hp
  · obtain ⟨e, hfind, rfl⟩ := Option.map_eq_some_iff.mp hp
    obtain ⟨he, front, rest, hsplit, hfront⟩ := List.find?_eq_some_iff_append.mp hfind
    have heq : s.inFront a = front := by
      rw [PatchSys.inFront, h.entries, hsplit, List.takeWhile_append_of_pos (by simpa using hfront)]
      simp [he]
    rw [heq]
    exact ⟨e, rest, hsplit, he, rfl, by simpa using hfront⟩

theorem isActiveAt_congr {a : BitVec 32} {e : Entry} (h : s'.patch e.patch = s.patch e.patch) :
    isActiveAt s' a e = isActiveAt s a e := by
  rw [isActiveAt, isActiveAt, h]

/-- The first active entry at an address is found, its bits being in the
filter. -/
theorem get_of_split (h : Lists s l) (hfilter : s.dbitsFilterBpkt = filterBits (s.entriesOf l))
    {a : BitVec 32} {front rest : List Entry} {e : Entry}
    (hsplit : s.entriesOf l = front ++ e :: rest) (he : isActiveAt s a e = true)
    (hfront : ∀ x ∈ front, isActiveAt s a x = false) :
    getDynamicPatchByBpkt s a = some e.patch := by
  have haddr : e.instAddr = a := by
    simp only [isActiveAt, Bool.and_eq_true, decide_eq_true_eq] at he
    exact he.1
  have hcovers : s.dbitsFilterBpkt &&& a = a := by
    rw [hfilter, ← haddr]
    exact filterBits_covers (by simp [hsplit])
  have hfind : (s.entriesOf l).find? (isActiveAt s a) = some e :=
    List.find?_eq_some_iff_append.mpr ⟨he, front, rest, hsplit, by simpa using hfront⟩
  rw [getDynamicPatchByBpkt_eq h, if_neg (by simp [hcovers]), hfind]
  rfl

/-- A patch stays exactly when no patch for the address of the new one is
listed in front of it. -/
theorem notifyNewPatch_keeps_iff (env : Env F) (s : PatchSys F) (hs : Reachable env s)
    (hroom : s.entries.length < maxDpNum) (a : BitVec 32) (p : ℕ)
    (hp : getDynamicPatchByBpkt s a = some p) (d : ℕ)
    (htype : (s.desc d).type = dynamicPatchPoint) (halign : (s.desc d).addr.toNat % 4 = 0)
    (hne : (s.desc d).addr ≠ a) :
    KeepsPatch env s d a p ↔ ∀ e ∈ s.inFront a, e.instAddr ≠ (s.desc d).addr := by
  obtain ⟨l, hl⟩ := hs.lists
  obtain ⟨e, rest, hsplit, he, rfl, hfront⟩ := split_of_get hl hp
  have haddr : e.instAddr = a := by
    simp only [isActiveAt, Bool.and_eq_true, decide_eq_true_eq] at he
    exact he.1
  have hallocated : ∀ x ∈ s.entriesOf l, x.patch ≤ s.patchCount := fun x hx => hl.patch_le hx
  have hfixed : s.fixedPatches ≠ none := by
    intro hnone
    rw [hl.fixed hnone] at hsplit
    simp [PatchSys.entriesOf] at hsplit
  obtain ⟨s', l', hnotify, hnotified⟩ := notifyNewPatch_notified env hl hfixed htype
  have hl' := hnotified.lists
  have hfilter := hnotified.filter
  have hentries := hnotified.entries
  rw [wordAddr_of_aligned halign] at hentries
  have hactive : ∀ x ∈ s.entriesOf l, isActiveAt s' a x = isActiveAt s a x :=
    fun x hx => isActiveAt_congr (hnotified.old _ (hallocated x hx))
  rw [hl.entries] at hroom
  rw [hsplit] at hentries hallocated hactive hroom
  constructor
  · rintro ⟨s'', hnotify', hkept⟩ x hx hxaddr
    obtain rfl : s'' = s' := Option.some.inj (hnotify'.symm.trans hnotify)
    -- what is left are entries that were in front, and the new one
    obtain ⟨c, hc, hdrops⟩ := addEntry_drops (b := e :: rest) hx hxaddr
      (newEntry env (s.desc d).addr (s.patchCount + 1))
    obtain ⟨y, _, hsplit', hy, hpatch', -⟩ := split_of_get hl' hkept
    have hmem : y ∈ c ++ [newEntry env (s.desc d).addr (s.patchCount + 1)] := by
      rw [← hdrops, ← hentries, hsplit']
      simp
    rcases List.mem_append.mp hmem with hmem | hmem
    · have hinactive := hactive y (by simp [hc hmem])
      rw [hy, hfront y (hc hmem)] at hinactive
      cases hinactive
    · have hold := hallocated e (by simp)
      have hnew : y.patch = s.patchCount + 1 := by rw [List.mem_singleton.mp hmem]; rfl
      omega
  · intro hinFront
    refine ⟨s', hnotify, ?_⟩
    have hother : ∀ y ∈ s.inFront a ++ [e], y.instAddr ≠ (s.desc d).addr := by
      intro y hy
      rcases List.mem_append.mp hy with hy | hy
      · exact hinFront y hy
      · rw [List.mem_singleton.mp hy, haddr]
        exact hne.symm
    obtain ⟨c, hc⟩ := addEntry_keeps (b := rest) hother (by simpa using hroom.le)
      (newEntry env (s.desc d).addr (s.patchCount + 1))
    rw [List.append_assoc, List.append_assoc] at hc
    have hkept := hentries.trans hc
    refine get_of_split hl' hfilter hkept ?_ fun x hx => ?_
    · rw [hactive e (by simp), he]
    · rw [hactive x (by simp [hx]), hfront x hx]

/-! ### Three patches -/

/-- A table of fixed patches that is an association list, and a flash of
16-bit instructions. -/
def listEnv : Env (List (BitVec 32 × ℕ)) where
  arraymapNew := []
  arraymapSet := fun m k v => (k, v) :: m.filter (·.1 ≠ k)
  arraymapVals := fun m => m.map (·.2)
  flash := fun _ => 0xbf00

/-- The system before it is initialised, with dynamic descriptors for
`0x08000100`, `0x08000200` and `0x08000100` again. -/
def threeDescs : PatchSys (List (BitVec 32 × ℕ)) where
  ctxInit := false
  fbitsFilter := 0
  dbitsFilterBpkt := 0
  dbitsFilterPc := 0
  fixedPatches := none
  node := fun _ => { patch := 0, next := none, instAddr := 0, pcAddr := 0 }
  nodeCount := 0
  patch := fun _ => { desc := 0, isActive := false }
  patchCount := 0
  desc := fun d => { type := dynamicPatchPoint, addr := if d = 2 then 0x08000200 else 0x08000100 }

/-- The context after `init_patch_sys` and some notifications. -/
def installed (ds : List ℕ) : Option (PatchSys (List (BitVec 32 × ℕ))) :=
  (initPatchSys listEnv threeDescs).bind fun s => ds.foldlM (notifyNewPatch listEnv) s

theorem installed_reachable {ds : List ℕ} {s : PatchSys (List (BitVec 32 × ℕ))}
    (h : installed ds = some s) : Reachable listEnv s := by
  obtain ⟨s₀, hinit, hs⟩ := Option.bind_eq_some_iff.mp h
  have hstart : Reachable listEnv s₀ := .initPatchSys (.boot rfl rfl rfl) hinit
  clear h hinit
  induction ds generalizing s₀ with
  | nil =>
      cases hs
      exact hstart
  | cons d ds ih =>
      rw [List.foldlM_cons, Option.bind_eq_bind, Option.bind_eq_some_iff] at hs
      obtain ⟨t, ht, hs⟩ := hs
      exact ih t hs (.notifyNewPatch d hstart ht)

def contextAfter (ds : List ℕ) : PatchSys (List (BitVec 32 × ℕ)) := (installed ds).getD threeDescs

theorem installed_eq_contextAfter (ds : List ℕ) (h : (installed ds).isSome = true) :
    installed ds = some (contextAfter ds) := by
  obtain ⟨s, hs⟩ := Option.isSome_iff_exists.mp h
  rw [contextAfter, hs]
  rfl

theorem second_patch_keeps_first : KeepsPatch listEnv (contextAfter [1]) 2 0x08000100 1 := by
  have hrun := installed_eq_contextAfter [1] (by decide)
  rw [notifyNewPatch_keeps_iff listEnv _ (installed_reachable hrun) (by decide)
    0x08000100 1 (by decide) 2 (by decide) (by decide)
    (by decide)]
  decide

/-- With patches at `0x08000100` and `0x08000200` listed, another one for
`0x08000100` hides that at `0x08000200`. -/
theorem third_patch_hides_second :
    Reachable listEnv (contextAfter [1, 2]) ∧ (contextAfter [1, 2]).entries.length < maxDpNum ∧
      getDynamicPatchByBpkt (contextAfter [1, 2]) 0x08000200 = some 2 ∧
      ¬KeepsPatch listEnv (contextAfter [1, 2]) 3 0x08000200 2 := by
  have hrun := installed_eq_contextAfter [1, 2] (by decide)
  refine ⟨installed_reachable hrun, by decide, by decide, ?_⟩
  rintro ⟨s', hs', hkept⟩
  have hhidden : ((notifyNewPatch listEnv (contextAfter [1, 2]) 3).bind fun s' =>
      getDynamicPatchByBpkt s' 0x08000200) = none := by decide
  rw [hs', Option.bind_some, hkept] at hhidden
  cases hhidden

end RapidPatch.Hotpatch
