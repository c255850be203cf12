import RapidPatch.Hotpatch.Breakpoints
import RapidPatch.Support.Events

/-!
How many patches are listed, and at which addresses.

A node is listed under the address its comparator breaks at, and two functions
look for one: `notify_new_patch` for the word the descriptor's address lies in,
`load_local_patch_to_ctx` for the address as the descriptor has it. The latter
may be in no node although its comparator is, and then the comparator is listed
twice. The nodes are counted up to the first one that is past the limit, and
the seventh is not. So the list stays within `MAX_DP_NUM` and free of repeated
addresses exactly as long as each call finds the address it looks for, or a
place for one that is not listed (`listSound_throughout_iff`).
-/

namespace RapidPatch.Hotpatch

open RapidPatch.Support

/-! ### Addresses of nodes -/

/-- Nothing but the bits of a halfword address in the code region. -/
theorem compAddr_masked (comp : BitVec 32) : compAddr comp &&& 0x1ffffffe = compAddr comp := by
  have hfield : comp &&& 0x1ffffffc &&& 0x1ffffffe = comp &&& 0x1ffffffc := by
    rw [BitVec.and_assoc]
    rfl
  simp only [compAddr]
  split
  · rw [BitVec.and_or_distrib_right, hfield]
    rfl
  · exact hfield

theorem and_two_eq {a : BitVec 32} (h : a &&& 0x2 ≠ 0) : a &&& 0x2 = 0x2 := by
  have htwo : (0x2 : BitVec 32) = BitVec.twoPow 32 1 := by decide
  rw [htwo, BitVec.and_twoPow] at h ⊢
  split
  · rfl
  · rename_i hbit
    rw [if_neg hbit] at h
    exact absurd rfl h

theorem calcBpktAddr_of_masked {a : BitVec 32} (h : a &&& 0x1ffffffe = a) : calcBpktAddr a = a := by
  have hparts : a = a &&& 0x1ffffffc ||| a &&& 0x2 := by
    rw [← BitVec.and_or_distrib_left]
    exact h.symm
  have hhigh : a >>> 30 = 0 := by
    rw [← h, BitVec.ushiftRight_and_distrib]
    simp
  have hword : (a &&& ~~~0x3#32) >>> 30 = 0 := by
    rw [BitVec.ushiftRight_and_distrib, hhigh]
    simp
  have hfield (replace : BitVec 32) (hreplace : replace <<< 30 &&& 0x1ffffffc = 0) :
      ((a &&& ~~~0x3#32) ||| 0x1 ||| replace <<< 30) &&& 0x1ffffffc = a &&& 0x1ffffffc := by
    rw [BitVec.and_or_distrib_right, BitVec.and_or_distrib_right, hreplace, BitVec.and_assoc]
    simp
  rw [calcBpktAddr_eq_compAddr]
  by_cases hhalf : a &&& 0x2 = 0
  · rw [fpComp, if_pos hhalf, compAddr, hfield 1 rfl, BitVec.ushiftRight_or_distrib,
      BitVec.ushiftRight_or_distrib, hword, if_neg (by decide)]
    rw [hhalf] at hparts
    simpa using hparts.symm
  · rw [fpComp, if_neg hhalf, compAddr, hfield 2 rfl, BitVec.ushiftRight_or_distrib,
      BitVec.ushiftRight_or_distrib, hword, if_pos (by decide)]
    rw [and_two_eq hhalf] at hparts
    exact hparts.symm

/-- The address of a comparator has that comparator. -/
theorem calcBpktAddr_idem (a : BitVec 32) : calcBpktAddr (calcBpktAddr a) = calcBpktAddr a :=
  calcBpktAddr_of_masked (compAddr_masked (fpComp a))

/-! ### Entries -/

/-- No more entries than `MAX_DP_NUM`, and no two at one address. -/
structure EntriesSound (es : List Entry) : Prop where
  capacity : es.length ≤ maxDpNum
  unique : (es.map (·.instAddr)).Nodup

/-- The address is listed, or there is room for it and its comparator is not
listed. -/
def HasPlace (es : List Entry) (addr : BitVec 32) : Prop :=
  addr ∈ es.map (·.instAddr) ∨
    es.length < maxDpNum ∧ calcBpktAddr addr ∉ es.map (·.instAddr)

/-- As every entry is that has been made by `newEntry`. -/
def EntriesFixed (es : List Entry) : Prop := ∀ x ∈ es, calcBpktAddr x.instAddr = x.instAddr

theorem addEntry_fixed {es : List Entry} (h : EntriesFixed es) (addr : BitVec 32) {e : Entry}
    (he : e.instAddr = calcBpktAddr addr) : EntriesFixed (addEntry es addr e) := by
  rw [addEntry_eq]
  intro x hx
  rcases List.mem_append.mp hx with hx | hx
  · exact h x ((keptEntries_initial es addr).subset hx)
  · rw [List.mem_singleton.mp hx, he, calcBpktAddr_idem]

theorem entriesSound_concat_iff {es : List Entry} {e : Entry} :
    EntriesSound (es ++ [e]) ↔
      EntriesSound es ∧ es.length < maxDpNum ∧ e.instAddr ∉ es.map (·.instAddr) := by
  have hunique : ((es ++ [e]).map (·.instAddr)).Nodup ↔
      e.instAddr ∉ es.map (·.instAddr) ∧ (es.map (·.instAddr)).Nodup := by
    rw [((List.perm_append_singleton e es).map _).nodup_iff, List.map_cons, List.nodup_cons]
  have hlength : (es ++ [e]).length = es.length + 1 := by simp
  constructor
  · rintro ⟨hcap, huniq⟩
    rw [hlength] at hcap
    obtain ⟨hnew, hold⟩ := hunique.mp huniq
    exact ⟨⟨by omega, hold⟩, by omega, hnew⟩
  · rintro ⟨h, hroom, hnew⟩
    exact ⟨by omega, hunique.mpr ⟨hnew, h.unique⟩⟩

theorem EntriesSound.initial {es fs : List Entry} (h : EntriesSound es) (hinit : fs <+: es) :
    EntriesSound fs :=
  ⟨hinit.length_le.trans h.capacity, (hinit.sublist.map _).nodup h.unique⟩

theorem addEntry_sound_iff {es : List Entry} (h : EntriesSound es) (hfixed : EntriesFixed es)
    {addr : BitVec 32} {e : Entry} (he : e.instAddr = calcBpktAddr addr) :
    EntriesSound (addEntry es addr e) ↔ HasPlace es addr := by
  have hkept := h.initial (keptEntries_initial es addr)
  rw [addEntry_eq, entriesSound_concat_iff, he]
  by_cases hlisted : addr ∈ es.map (·.instAddr)
  · -- the new entry comes in the place of an old one, at the same address
    obtain ⟨x, hx, hxaddr⟩ := List.mem_map.mp hlisted
    have haddr : calcBpktAddr addr = addr := by rw [← hxaddr, hfixed x hx]
    have hnot : addr ∉ (keptEntries es addr).map (·.instAddr) := by
      intro hmem
      obtain ⟨y, hy, hyaddr⟩ := List.mem_map.mp hmem
      exact keptEntries_ne y hy hyaddr
    have hshort : (keptEntries es addr).length < es.length := by
      refine lt_of_le_of_ne (keptEntries_initial es addr).length_le ?_
      intro hlen
      rw [(keptEntries_initial es addr).eq_of_length hlen] at hnot
      exact hnot hlisted
    rw [haddr]
    exact iff_of_true ⟨hkept, hshort.trans_le h.capacity, hnot⟩ (.inl hlisted)
  · have hall : keptEntries es addr = es := by
      have hany : ¬es.any (·.instAddr = addr) = true := by
        intro hany
        obtain ⟨x, hx, hxaddr⟩ := List.any_eq_true.mp hany
        exact hlisted (List.mem_map.mpr ⟨x, hx, of_decide_eq_true hxaddr⟩)
      rw [keptEntries, if_neg hany, if_neg (Nat.not_lt.mpr h.capacity)]
    rw [hall]
    constructor
    · rintro ⟨-, hplace⟩
      exact .inr hplace
    · rintro (hmem | hplace)
      · exact absurd hmem hlisted
      · exact ⟨h, hplace⟩

theorem entriesSound_move_iff {a b : List Entry} {x y : Entry} (h : EntriesSound (a ++ x :: b)) :
    EntriesSound (a ++ y :: b) ↔ y.instAddr ∉ (a ++ b).map (·.instAddr) := by
  have hsplit (z : Entry) : ((a ++ z :: b).map (·.instAddr)).Nodup ↔
      z.instAddr ∉ (a ++ b).map (·.instAddr) ∧ ((a ++ b).map (·.instAddr)).Nodup := by
    rw [(List.perm_middle.map _).nodup_iff, List.map_cons, List.nodup_cons]
  constructor
  · intro hy
    exact ((hsplit y).mp hy.unique).1
  · intro hy
    refine ⟨?_, (hsplit y).mpr ⟨hy, ((hsplit x).mp h.unique).2⟩⟩
    have hcap := h.capacity
    simpa using hcap

/-! ### What the calls do to the list -/

variable {F : Type} {env : Env F} {s s' : PatchSys F} {l l' : List ℕ}

theorem entries_congr (h : Lists s l) (h' : Lists s' l') (hnode : s'.node = s.node) :
    s'.entries = s.entries := by
  have hnext : s'.next = s.next := by
    unfold PatchSys.next
    rw [hnode]
  have htail := h'.tail
  rw [hnext] at htail
  obtain rfl : l' = l := htail.unique h.tail
  rw [h.entries, h'.entries, PatchSys.entriesOf, PatchSys.entriesOf, hnode]

def PatchSys.descOf (s : PatchSys F) (p : ℕ) : PatchDesc := s.desc (s.patch p).desc

theorem addFixedPatchToCtx_node {p : ℕ} (hs : addFixedPatchToCtx env s p = some s') :
    s'.node = s.node := by
  simp only [addFixedPatchToCtx, Option.bind_eq_bind, Option.bind_eq_some_iff] at hs
  obtain ⟨fixed, -, heq⟩ := hs
  cases heq
  rfl

/-- A patch of another type leaves the list alone. -/
theorem notifyNewPatch_node {d : ℕ} (htype : (s.desc d).type ≠ dynamicPatchPoint)
    (hs : notifyNewPatch env s d = some s') : s'.node = s.node := by
  simp only [notifyNewPatch, Option.bind_eq_bind, Option.bind_eq_some_iff] at hs
  obtain ⟨⟨t, p⟩, ht, hs⟩ := hs
  rw [(activePatch_activates hs).2.node]
  simp only [addEbpfPatch] at ht
  split at ht
  · obtain ⟨u, hu, heq⟩ := Option.map_eq_some_iff.mp ht
    cases heq
    exact (addFixedPatchToCtx_node hu : t.node = _)
  · split at ht
    · rename_i hdynamic
      exact absurd hdynamic htype
    · cases ht
      rfl

theorem notifyNewPatch_entries (h : Lists s l) {d : ℕ} (hs : notifyNewPatch env s d = some s') :
    s'.entries =
      if (s.desc d).type = dynamicPatchPoint then
        addEntry s.entries (s.wordAddr d) (newEntry env (s.wordAddr d) (s.patchCount + 1))
      else s.entries := by
  by_cases htype : (s.desc d).type = dynamicPatchPoint
  · have hfixed : s.fixedPatches ≠ none := by
      have hactive := hs
      rw [notifyNewPatch_dynamic htype] at hactive
      have hsome := (activePatch_activates hactive).1
      rwa [(addDynamicPatchToCtx_same _ _).fixedPatches] at hsome
    obtain ⟨t, l', ht, hn⟩ := notifyNewPatch_notified env h hfixed htype
    obtain rfl : s' = t := Option.some.inj (hs.symm.trans ht)
    rw [if_pos htype, hn.lists.entries, hn.entries, h.entries]
  · obtain ⟨l', hl'⟩ := notifyNewPatch_lists h hs
    rw [if_neg htype, entries_congr h hl' (notifyNewPatch_node htype hs)]

theorem Lists.entriesOf_setNode {a b : List ℕ} {i : ℕ} (h : Lists s (a ++ i :: b))
    (dp : DynamicPatch) :
    (s.setNode i dp).entriesOf (a ++ i :: b) = s.entriesOf a ++ dp.entry :: s.entriesOf b := by
  have hnodup := (List.nodup_cons.mp h.chain.nodup).2
  rw [List.perm_middle.nodup_iff, List.nodup_cons] at hnodup
  have hother (c : List ℕ) (hc : c ⊆ a ++ b) : (s.setNode i dp).entriesOf c = s.entriesOf c := by
    apply List.map_congr_left
    intro j hj
    rw [setNode_node_of_ne]
    rintro rfl
    exact hnodup.1 (hc hj)
  rw [PatchSys.entriesOf, List.map_append, List.map_cons, setNode_node_self]
  exact congrArg₂ (fun x y => x ++ dp.entry :: y) (hother a (List.subset_append_left a b))
    (hother b (List.subset_append_right a b))

/-- Loading a patch that is not listed adds an entry, and another one's is
rewritten where it is. -/
theorem loadLocalPatchToCtx_entries (h : Lists s l) {p : ℕ} (hp : p ≤ s.patchCount)
    (hs : loadLocalPatchToCtx env s p = some s') :
    (s.descOf p).type ≠ dynamicPatchPoint ∧ s'.entries = s.entries ∨
    (s.descOf p).type = dynamicPatchPoint ∧ (∀ x ∈ s.entries, x.patch ≠ p) ∧
      s'.entries =
        addEntry s.entries (s.descOf p).addr (newEntry env (s.descOf p).addr p) ∨
    (s.descOf p).type = dynamicPatchPoint ∧
      ∃ a x b, s.entries = a ++ x :: b ∧ (∀ y ∈ a, y.patch ≠ p) ∧ x.patch = p ∧
        s'.entries = a ++ newEntry env (s.descOf p).addr p :: b := by
  obtain ⟨l', hl'⟩ := loadLocalPatchToCtx_lists h hp hs
  simp only [loadLocalPatchToCtx] at hs
  split at hs
  · rename_i htype
    rw [Option.bind_eq_bind, Option.bind_eq_some_iff] at hs
    obtain ⟨t, ht, hs⟩ := hs
    left
    refine ⟨?_, entries_congr h hl' ?_⟩
    · show (s.desc (s.patch p).desc).type ≠ dynamicPatchPoint
      rw [htype]
      decide
    · rw [(activePatch_activates hs).2.node, addFixedPatchToCtx_node ht]
  · split at hs
    · rename_i htype
      right
      split at hs
      · rename_i hnone
        left
        obtain ⟨-, k, hk, hentries, -⟩ := h.install hp rfl hs
        rw [h.search] at hnone
        refine ⟨htype, ?_, ?_⟩
        · rw [h.entries]
          simpa [PatchSys.entriesOf, DynamicPatch.entry] using List.find?_eq_none.mp hnone
        · rw [hk.entries, hentries, h.entries]
          rfl
      · rename_i i hsome
        right
        rw [h.search] at hsome
        obtain ⟨hi, a, b, rfl, ha⟩ := List.find?_eq_some_iff_append.mp hsome
        have hpatch : (s.node i).patch = p := by simpa using hi
        refine ⟨htype, s.entriesOf a, (s.node i).entry, s.entriesOf b, ?_, ?_, hpatch, ?_⟩
        · rw [h.entries, PatchSys.entriesOf, List.map_append, List.map_cons]
          rfl
        · simpa [PatchSys.entriesOf, DynamicPatch.entry] using ha
        · let moved : DynamicPatch := { s.node i with
            instAddr := calcBpktAddr (s.descOf p).addr
            pcAddr := calcBpktPc env (calcBpktAddr (s.descOf p).addr) }
          have hset : Lists (s.setNode i moved) _ := h.setNode rfl rfl
          have hactive := (activePatch_activates hs).2
          rw [(hactive.lists hset).entries, hactive.entriesOf]
          refine (h.entriesOf_setNode _).trans ?_
          rw [newEntry, ← hpatch]
          rfl
    · rename_i htype
      cases hs
      exact .inl ⟨htype, rfl⟩

/-! ### Runs -/

/-- A call of the two entry points, or what a caller does between them: fill in
a descriptor or make a patch for one. -/
inductive ListCall
  | notify (d : ℕ)
  | load (p : ℕ)
  | writeDesc (d : ℕ) (desc : PatchDesc)
  | allocPatch (d : ℕ)

def listCall (env : Env F) (s : PatchSys F) : ListCall → Option (PatchSys F)
  | .notify d => notifyNewPatch env s d
  | .load p => if 0 < p ∧ p ≤ s.patchCount then loadLocalPatchToCtx env s p else none
  | .writeDesc d desc => some { s with desc := Function.update s.desc d desc }
  | .allocPatch d => some (ebpfPatchSetup s d).1

/-- The list is within its bound and has no address twice. -/
def ListSound (s : PatchSys F) : Prop := EntriesSound s.entries

/-- A patch that is already listed is moved to an address at which no other
one is, and any other dynamic patch has a place. -/
def Fits (s : PatchSys F) : ListCall → Prop
  | .notify d => (s.desc d).type = dynamicPatchPoint → HasPlace s.entries (s.wordAddr d)
  | .load p =>
      (s.descOf p).type = dynamicPatchPoint →
        if s.entries.any (·.patch = p) then
          calcBpktAddr (s.descOf p).addr ∉
            (s.entries.eraseP (·.patch = p)).map (·.instAddr)
        else HasPlace s.entries (s.descOf p).addr
  | .writeDesc _ _ => True
  | .allocPatch _ => True

theorem Reachable.listCall {c : ListCall} (h : Reachable env s)
    (hs : listCall env s c = some s') : Reachable env s' := by
  cases c with
  | notify d => exact .notifyNewPatch d h hs
  | load p =>
      rw [Hotpatch.listCall] at hs
      split at hs
      · exact .loadLocalPatchToCtx p h ‹_› hs
      · cases hs
  | writeDesc d desc =>
      cases hs
      exact .writeDesc d desc h
  | allocPatch d =>
      cases hs
      exact .allocPatch d h

theorem entries_of_next (h : s.next 0 = none) : s.entries = [] := (Lists.nil h).entries

/-- The addresses of all nodes are addresses of comparators. -/
theorem Reachable.entriesFixed (h : Reachable env s) : EntriesFixed s.entries := by
  induction h with
  | boot _ _ hnext =>
      rw [entries_of_next hnext]
      exact fun _ hx => absurd hx List.not_mem_nil
  | initPatchSys _ hs ih =>
      rcases initPatchSys_cases hs with rfl | hinit
      · exact ih
      · rw [entries_of_next hinit.next]
        exact fun _ hx => absurd hx List.not_mem_nil
  | notifyNewPatch d h hs ih =>
      obtain ⟨l, hl⟩ := h.lists
      rw [notifyNewPatch_entries hl hs]
      split
      · exact addEntry_fixed ih _ rfl
      · exact ih
  | loadLocalPatchToCtx p h hp hs ih =>
      obtain ⟨l, hl⟩ := h.lists
      obtain ⟨-, heq⟩ | ⟨-, -, heq⟩ | ⟨-, a, x, b, hsplit, -, -, heq⟩ :=
        loadLocalPatchToCtx_entries hl hp.2 hs
      · rw [heq]
        exact ih
      · rw [heq]
        exact addEntry_fixed ih _ rfl
      · rw [heq]
        rw [hsplit] at ih
        intro y hy
        rcases List.mem_append.mp hy with hy | hy
        · exact ih y (List.mem_append_left _ hy)
        · rcases List.mem_cons.mp hy with rfl | hy
          · exact calcBpktAddr_idem _
          · exact ih y (by simp [hy])
  | destroyPatchContext _ _ =>
      rw [entries_of_next (by simp [PatchSys.next, Hotpatch.destroyPatchContext, PatchSys.setNode])]
      exact fun _ hx => absurd hx List.not_mem_nil
  | writeDesc d desc _ ih => exact ih
  | allocPatch d h ih =>
      obtain ⟨l, hl⟩ := h.lists
      rw [entries_congr hl (hl.ebpfPatchSetup d) rfl]
      exact ih

/-- A call keeps the list sound exactly if what it lists fits. -/
theorem listCall_sound_iff {c : ListCall} (h : Reachable env s) (hsound : ListSound s)
    (hs : listCall env s c = some s') : ListSound s' ↔ Fits s c := by
  obtain ⟨l, hl⟩ := h.lists
  have hfixed := h.entriesFixed
  cases c with
  | notify d =>
      rw [ListSound, notifyNewPatch_entries hl hs, Fits]
      split
      · rename_i htype
        rw [addEntry_sound_iff hsound hfixed rfl]
        exact ⟨fun hplace _ => hplace, fun hplace => hplace htype⟩
      · rename_i htype
        exact iff_of_true hsound fun h => absurd h htype
  | load p =>
      rw [listCall] at hs
      split at hs
      · rename_i hp
        obtain ⟨htype, heq⟩ | ⟨htype, hnew, heq⟩ | ⟨htype, a, x, b, hsplit, ha, hx, heq⟩ :=
          loadLocalPatchToCtx_entries hl hp.2 hs
        · rw [ListSound, heq]
          exact iff_of_true hsound fun h => absurd h htype
        · have hany : ¬s.entries.any (·.patch = p) = true := by simpa using hnew
          rw [ListSound, heq, addEntry_sound_iff hsound hfixed rfl]
          simp only [Fits, htype, if_neg hany, true_implies]
        · have hany : s.entries.any (·.patch = p) = true := by simp [hsplit, hx]
          have herase : s.entries.eraseP (·.patch = p) = a ++ b := by
            rw [hsplit, List.eraseP_append_right _ (by simpa using ha),
              List.eraseP_cons_of_pos (by simpa using hx)]
          rw [ListSound, hsplit] at hsound
          rw [ListSound, heq, entriesSound_move_iff hsound]
          simp only [Fits, htype, if_pos hany, herase, true_implies, newEntry]
      · cases hs
  | writeDesc d desc =>
      cases hs
      exact iff_of_true hsound trivial
  | allocPatch d =>
      cases hs
      rw [ListSound, entries_congr hl (hl.ebpfPatchSetup d) rfl]
      exact iff_of_true hsound trivial

/-- Through all calls, the list is never longer than `MAX_DP_NUM` and has no
address twice exactly if what each of them lists fits. -/
theorem listSound_throughout_iff (env : Env F) (s : PatchSys F) (hs : Reachable env s)
    (hsound : ListSound s) (cs : List ListCall) :
    Throughout (listCall env) ListSound s cs ↔ EachStep (listCall env) Fits s cs :=
  throughout_iff_eachStep_of_invariant (I := Reachable env) (fun _ _ _ h => h.listCall)
    (fun _ _ _ => listCall_sound_iff) hs hsound cs

/-! ### Seven patches, and one address twice -/

/-- An initialised context without patches, and dynamic descriptors for
`0x08000000`, `0x08000100` and so on, the last for `0x08000101`. -/
def freshList : PatchSys (List (BitVec 32 × ℕ)) :=
  { contextAfter [] with
    desc := fun d =>
      { type := dynamicPatchPoint
        addr := if d = 7 then 0x08000101 else 0x08000000 + 0x100 * BitVec.ofNat 32 d } }

/-- `freshList` before its context is initialised. -/
def bootList : PatchSys (List (BitVec 32 × ℕ)) := { threeDescs with desc := freshList.desc }

theorem freshList_reachable : Reachable listEnv freshList :=
  .initPatchSys (.boot (s := bootList) rfl rfl rfl) rfl

theorem freshList_sound : ListSound freshList := by
  have hnil : freshList.entries = [] := rfl
  rw [ListSound, hnil]
  exact ⟨Nat.zero_le _, List.nodup_nil⟩

theorem same_patch_twice_sound :
    Throughout (listCall listEnv) ListSound freshList [.notify 1, .notify 1] := by
  refine (listSound_throughout_iff listEnv freshList freshList_reachable freshList_sound _).mpr ?_
  intro t ht
  refine ⟨fun _ => .inr ⟨by decide, by decide⟩, ?_⟩
  intro u hu
  refine ⟨fun _ => .inl ?_, trivial⟩
  have ht' : t = (listCall listEnv freshList (.notify 1)).get (by decide) := by
    rw [Option.get_of_eq_some _ ht]
  rw [ht']
  decide

/-- Seven notifications list seven patches, and a patch that is loaded for an
address with the Thumb bit is listed beside one at the address itself. -/
theorem seven_patches_listed :
    Reachable listEnv freshList ∧ ListSound freshList ∧
      ¬Throughout (listCall listEnv) ListSound freshList ((List.range 7).map .notify) ∧
      ¬Throughout (listCall listEnv) ListSound freshList [.notify 1, .allocPatch 7, .load 2] := by
  refine ⟨freshList_reachable, freshList_sound, ?_, ?_⟩
  · intro h
    have hlength : (runEvents (listCall listEnv) freshList ((List.range 7).map .notify)).map
        (·.entries.length) = some 7 := by decide
    obtain ⟨t, ht, hseven⟩ := Option.map_eq_some_iff.mp hlength
    have hcap := (h.run ht).capacity
    rw [hseven] at hcap
    exact absurd hcap (by decide)
  · intro h
    have haddrs : (runEvents (listCall listEnv) freshList
        [.notify 1, .allocPatch 7, .load 2]).map (fun t => t.entries.map (·.instAddr)) =
          some [0x08000100, 0x08000100] := by decide
    obtain ⟨t, ht, htwice⟩ := Option.map_eq_some_iff.mp haddrs
    have huniq := (h.run ht).unique
    rw [htwice] at huniq
    exact absurd huniq (by decide)

end RapidPatch.Hotpatch
