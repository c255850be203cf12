import RapidPatch.Hotpatch.PatchList
import RapidPatch.Support.Stores

/-!
Installing a dynamic patch, store by store.

The lookups run in exception handlers, so they may see every state between
two stores of `notify_new_patch`. `notifyWrites` lists the stores in the order
of the source; done one after the other they are `notifyNewPatch`
(`notifyWrites_refine`). A node is linked before its fields are written, and
`Midway` keeps track of the fields that are not, so that a lookup that reads
one is told apart from a lookup that finds nothing.

The filters are cleared before they are made anew. In between, the address 0
is the only one that passes, and with that a patch stays visible throughout
an installation only at the address 0, and only if its node is not behind the
node that the installation writes to (`staysVisible_iff`).
-/

namespace RapidPatch.Hotpatch

open RapidPatch.Support

/-- The fields of a `dynamic_patch`. -/
inductive NodeField
  | patch | next | instAddr | pcAddr
  deriving DecidableEq

/-- A store to the context, to a node of the list or to a patch. -/
inductive Write
  | next (i : ℕ) (v : Option ℕ)
  | instAddr (i : ℕ) (v : BitVec 32)
  | pcAddr (i : ℕ) (v : BitVec 32)
  | patch (i : ℕ) (p : ℕ)
  | fbitsFilter (v : BitVec 32)
  | dbitsFilterBpkt (v : BitVec 32)
  | dbitsFilterPc (v : BitVec 32)
  | isActive (p : ℕ)
  deriving DecidableEq

/-- The context in the middle of an update, with the fields of nodes that have
been written since the node was allocated. -/
structure Midway (F : Type) where
  sys : PatchSys F
  written : ℕ → NodeField → Bool

section

variable {F : Type}

def Midway.setField (m : Midway F) (i : ℕ) (field : NodeField) (dp : DynamicPatch) : Midway F where
  sys := m.sys.setNode i dp
  written := fun j f => (j = i && f = field) || m.written j f

def Write.apply (m : Midway F) : Write → Midway F
  | .next i v => m.setField i .next { m.sys.node i with next := v }
  | .instAddr i v => m.setField i .instAddr { m.sys.node i with instAddr := v }
  | .pcAddr i v => m.setField i .pcAddr { m.sys.node i with pcAddr := v }
  | .patch i p => m.setField i .patch { m.sys.node i with patch := p }
  | .fbitsFilter v => { m with sys := { m.sys with fbitsFilter := v } }
  | .dbitsFilterBpkt v => { m with sys := { m.sys with dbitsFilterBpkt := v } }
  | .dbitsFilterPc v => { m with sys := { m.sys with dbitsFilterPc := v } }
  | .isActive p =>
      let active := { m.sys.patch p with isActive := true }
      { m with sys := { m.sys with patch := Function.update m.sys.patch p active } }

/-! ### The stores -/

/-- The node that `add_dynamic_patch_to_ctx` writes to, and the node it links
it to if it is a new one. -/
def addedNode (s : PatchSys F) (addr : BitVec 32) : ℕ × Option ℕ :=
  let (passed, found) := s.search fun dp => dp.instAddr = addr
  let tail := passed.getLastD 0
  match found with
  | some dp => (dp, none)
  | none => if passed.length > maxDpNum then (tail, none) else (s.nodeCount + 1, some tail)

def addedPatch (env : Env F) (addr : BitVec 32) (p : ℕ) : DynamicPatch where
  patch := p
  next := none
  instAddr := calcBpktAddr addr
  pcAddr := calcBpktPc env (calcBpktAddr addr)

/-- The stores to the fields of a node, in the order of the source. -/
def fillWrites (cur : ℕ) (dp : DynamicPatch) : List Write :=
  [.next cur dp.next, .instAddr cur dp.instAddr, .pcAddr cur dp.pcAddr, .patch cur dp.patch]

/-- The stores of `add_dynamic_patch_to_ctx`. -/
def addDynamicPatchWrites (env : Env F) (s : PatchSys F) (p : ℕ) : List Write :=
  let addr := (s.desc (s.patch p).desc).addr
  let (cur, link) := addedNode s addr
  (link.map fun tail => Write.next tail (some cur)).toList ++
    fillWrites cur (addedPatch env addr p)

/-- The first loop of `update_bits_filter`, over the fixed patches. -/
def fixedFilterWrites (s : PatchSys F) (bits : BitVec 32) : List ℕ → List Write
  | [] => []
  | p :: ps =>
      if (s.patch p).isActive then
        let bits := bits ||| (s.desc (s.patch p).desc).addr
        .fbitsFilter bits :: fixedFilterWrites s bits ps
      else fixedFilterWrites s bits ps

/-- The second loop of `update_bits_filter`, over the nodes of the list. -/
def nodeFilterWrites (s : PatchSys F) (pc bpkt : BitVec 32) : List ℕ → List Write
  | [] => []
  | i :: l =>
      let pc := pc ||| (s.node i).pcAddr
      let bpkt := bpkt ||| (s.node i).instAddr
      .dbitsFilterPc pc :: .dbitsFilterBpkt bpkt :: nodeFilterWrites s pc bpkt l

/-- The stores of `update_bits_filter`. -/
def updateBitsFilterWrites (env : Env F) (s : PatchSys F) : Option (List Write) := do
  let fixed ← s.fixedPatches
  return .fbitsFilter 0 :: fixedFilterWrites s 0 (env.arraymapVals fixed) ++
    [.dbitsFilterBpkt 0, .dbitsFilterPc 0] ++
    nodeFilterWrites s 0 0 (s.search fun _ => false).1

/-- The stores of `notify_new_patch` for the descriptor of a dynamic patch. -/
def notifyWrites (env : Env F) (s : PatchSys F) (d : ℕ) : Option (List Write) := do
  let s := prepared s d
  let p := s.patchCount
  let filterWrites ← updateBitsFilterWrites env (addDynamicPatchToCtx env s p).1
  return addDynamicPatchWrites env s p ++ (filterWrites ++ [.isActive p])

/-- The context before the first store: the patch is set up, and a node is
allocated if one is needed. -/
def beforeWrites (s : PatchSys F) (d : ℕ) : Midway F where
  sys :=
    let s := prepared s d
    { s with nodeCount :=
        if (addedNode s (s.desc d).addr).2.isSome then s.nodeCount + 1 else s.nodeCount }
  written := fun i _ => i ≤ s.nodeCount

end

variable {F : Type} {env : Env F} {s s' : PatchSys F} {m : Midway F} {l : List ℕ}

/-! ### A lookup in between -/

/-- The loop of `get_dynamic_patch_by_bpkt` from a pointer on, `none` if it
reads a field that is not written. -/
def Midway.lookup (m : Midway F) (loc : BitVec 32) : ℕ → Option ℕ → Option (Option ℕ)
  | 0, _ => some none
  | _ + 1, none => some none
  | n + 1, some i =>
      let dp := m.sys.node i
      if !m.written i .instAddr || (dp.instAddr = loc && !m.written i .patch) then none
      else if dp.instAddr = loc && (m.sys.patch dp.patch).isActive then some (some dp.patch)
      else if !m.written i .next then none
      else m.lookup loc n dp.next

/-- `get_dynamic_patch_by_bpkt` between two stores. -/
def Midway.getDynamicPatchByBpkt (m : Midway F) (loc : BitVec 32) : Option (Option ℕ) :=
  if m.sys.dbitsFilterBpkt &&& loc ≠ loc then some none
  else m.lookup loc (m.sys.nodeCount + 1) (m.sys.next 0)

/-- The lookups of the patch `p` at `a` while the patch of descriptor `d` is
being installed. -/
def StaysVisible (env : Env F) (s : PatchSys F) (d : ℕ) (a : BitVec 32) (p : ℕ) : Prop :=
  ∃ ws, notifyWrites env s d = some ws ∧
    ∀ m, Between Write.apply (beforeWrites s d) ws m → m.getDynamicPatchByBpkt a = some (some p)

def foundAt (s : PatchSys F) (a : BitVec 32) (i : ℕ) : Bool :=
  (s.node i).instAddr = a && (s.patch (s.node i).patch).isActive

theorem Midway.lookup_eq {q : Option ℕ} {n : ℕ} (h : Chain m.sys.next q l)
    (hwritten : ∀ i ∈ l, ∀ f, m.written i f = true) (hn : l.length < n) (loc : BitVec 32) :
    m.lookup loc n q = some ((l.find? (foundAt m.sys loc)).map fun i => (m.sys.node i).patch) := by
  induction h generalizing n with
  | nil =>
      cases n with
      | zero => cases hn
      | succ n => rfl
  | @cons i l h ih =>
      cases n with
      | zero => cases hn
      | succ n =>
          have hi := hwritten i List.mem_cons_self
          have hrest := ih (fun j hj => hwritten j (List.mem_cons_of_mem i hj)) (n := n)
            (by simpa using hn)
          have hlink : (m.sys.node i).next = m.sys.next i := rfl
          simp only [Midway.lookup, hi, Bool.not_true, Bool.and_false, Bool.or_false,
            Bool.false_eq_true, if_false, hlink, hrest, List.find?_cons]
          cases hfound : foundAt m.sys loc i with
          | true => simp [foundAt] at hfound; simp [hfound]
          | false => rw [foundAt] at hfound; simp [hfound]

theorem Midway.getDynamicPatchByBpkt_eq (h : Lists m.sys l)
    (hwritten : ∀ i ≤ m.sys.nodeCount, ∀ f, m.written i f = true) (loc : BitVec 32) :
    m.getDynamicPatchByBpkt loc = some (Hotpatch.getDynamicPatchByBpkt m.sys loc) := by
  have hlookup := Midway.lookup_eq h.tail (fun i hi => hwritten i (h.allocated i hi))
    (Nat.lt_succ_of_le h.length_le) loc
  rw [Midway.getDynamicPatchByBpkt, Hotpatch.getDynamicPatchByBpkt, hlookup, h.search]
  split <;> rfl

/-! ### Done one after the other -/

theorem foldl_fillWrites (m : Midway F) (i : ℕ) (dp : DynamicPatch) :
    (fillWrites i dp).foldl Write.apply m =
      { sys := m.sys.setNode i dp, written := fun j f => j = i || m.written j f } := by
  have hwritten : ∀ (j : ℕ) (f : NodeField),
      (decide (j = i) && decide (f = .patch) || (decide (j = i) && decide (f = .pcAddr) ||
        (decide (j = i) && decide (f = .instAddr) || (decide (j = i) && decide (f = .next) ||
          m.written j f)))) = (decide (j = i) || m.written j f) := by
    intro j f
    by_cases hj : j = i
    · cases f <;> simp [hj]
    · simp [hj]
  simp only [fillWrites, List.foldl_cons, List.foldl_nil, Write.apply, Midway.setField,
    PatchSys.setNode, Function.update_self, Function.update_idem, hwritten]

theorem foldl_fixedFilterWrites (s : PatchSys F) (ps : List ℕ) (m : Midway F) :
    (fixedFilterWrites s m.sys.fbitsFilter ps).foldl Write.apply m =
      { m with sys := { m.sys with
          fbitsFilter := ps.foldl
            (fun bits p =>
              if (s.patch p).isActive then bits ||| (s.desc (s.patch p).desc).addr else bits)
            m.sys.fbitsFilter } } := by
  induction ps generalizing m with
  | nil => rfl
  | cons p ps ih =>
      by_cases hp : (s.patch p).isActive = true
      · rw [fixedFilterWrites, if_pos hp, List.foldl_cons, List.foldl_cons, if_pos hp]
        exact ih { m with sys := { m.sys with
          fbitsFilter := m.sys.fbitsFilter ||| (s.desc (s.patch p).desc).addr } }
      · rw [fixedFilterWrites, if_neg hp, List.foldl_cons, if_neg hp]
        exact ih m

theorem foldl_nodeFilterWrites (s : PatchSys F) (l : List ℕ) (m : Midway F) :
    (nodeFilterWrites s m.sys.dbitsFilterPc m.sys.dbitsFilterBpkt l).foldl Write.apply m =
      { m with sys := { m.sys with
          dbitsFilterPc := l.foldl (fun bits i => bits ||| (s.node i).pcAddr) m.sys.dbitsFilterPc
          dbitsFilterBpkt :=
            l.foldl (fun bits i => bits ||| (s.node i).instAddr) m.sys.dbitsFilterBpkt } } := by
  induction l generalizing m with
  | nil => rfl
  | cons i l ih =>
      exact ih { m with sys := { m.sys with
        dbitsFilterPc := m.sys.dbitsFilterPc ||| (s.node i).pcAddr
        dbitsFilterBpkt := m.sys.dbitsFilterBpkt ||| (s.node i).instAddr } }

theorem updateBitsFilter_eq (env : Env F) {fixed : F} (hfixed : s.fixedPatches = some fixed) :
    updateBitsFilter env s = some { s with
      fbitsFilter := (env.arraymapVals fixed).foldl
        (fun bits p =>
          if (s.patch p).isActive then bits ||| (s.desc (s.patch p).desc).addr else bits)
        0
      dbitsFilterPc :=
        (s.search fun _ => false).1.foldl (fun bits i => bits ||| (s.node i).pcAddr) 0
      dbitsFilterBpkt :=
        (s.search fun _ => false).1.foldl (fun bits i => bits ||| (s.node i).instAddr) 0 } := by
  rw [updateBitsFilter, hfixed]
  rfl

theorem updateBitsFilterWrites_eq (env : Env F) {fixed : F}
    (hfixed : s.fixedPatches = some fixed) :
    updateBitsFilterWrites env s = some (.fbitsFilter 0 ::
      fixedFilterWrites s 0 (env.arraymapVals fixed) ++ [.dbitsFilterBpkt 0, .dbitsFilterPc 0] ++
        nodeFilterWrites s 0 0 (s.search fun _ => false).1) := by
  rw [updateBitsFilterWrites, hfixed]
  rfl

/-- The stores of `update_bits_filter` do what `updateBitsFilter` does. -/
theorem foldl_updateBitsFilterWrites (env : Env F) (m : Midway F) {ws : List Write}
    (hws : updateBitsFilterWrites env m.sys = some ws) :
    ∃ s', updateBitsFilter env m.sys = some s' ∧ ws.foldl Write.apply m = { m with sys := s' } := by
  obtain ⟨fixed, hfixed, -⟩ := Option.bind_eq_some_iff.mp hws
  rw [updateBitsFilterWrites_eq env hfixed, Option.some.injEq] at hws
  refine ⟨_, updateBitsFilter_eq env hfixed, ?_⟩
  have hfirst : (Write.fbitsFilter 0 :: fixedFilterWrites m.sys 0 (env.arraymapVals fixed)).foldl
      Write.apply m = _ :=
    foldl_fixedFilterWrites m.sys (env.arraymapVals fixed)
      { m with sys := { m.sys with fbitsFilter := 0 } }
  rw [← hws, List.foldl_append, List.foldl_append, hfirst]
  exact foldl_nodeFilterWrites m.sys _ _

/-- `add_dynamic_patch_to_ctx` writes to a node of the list, or links a new one
behind the last one. -/
theorem addDynamicPatchToCtx_cases (env : Env F) (s : PatchSys F) {p : ℕ} {addr : BitVec 32}
    (haddr : (s.desc (s.patch p).desc).addr = addr) :
    (∃ cur, addedNode s addr = (cur, none) ∧
      (addDynamicPatchToCtx env s p).1 = s.setNode cur (addedPatch env addr p)) ∨
    (∃ cur tail, cur = s.nodeCount + 1 ∧ addedNode s addr = (cur, some tail) ∧
      (addDynamicPatchToCtx env s p).1 =
        ({ s with nodeCount := cur }.setNode tail
          { s.node tail with next := some cur }).setNode cur (addedPatch env addr p)) := by
  subst haddr
  simp only [addDynamicPatchToCtx, addedNode]
  obtain ⟨passed, found⟩ := s.search fun dp => dp.instAddr = (s.desc (s.patch p).desc).addr
  cases found with
  | some dp => exact .inl ⟨dp, rfl, rfl⟩
  | none =>
      by_cases hfull : passed.length > maxDpNum
      · simp only [if_pos hfull]
        exact .inl ⟨_, rfl, rfl⟩
      · simp only [if_neg hfull]
        exact .inr ⟨_, _, rfl, rfl, rfl⟩

/-- The stores of `add_dynamic_patch_to_ctx` do what `addDynamicPatchToCtx`
does, and leave no field unwritten. -/
theorem foldl_addDynamicPatchWrites (env : Env F) (s : PatchSys F) (d : ℕ) :
    let t := prepared s d
    let m := (addDynamicPatchWrites env t t.patchCount).foldl Write.apply (beforeWrites s d)
    m.sys = (addDynamicPatchToCtx env t t.patchCount).1 ∧
      ∀ i ≤ m.sys.nodeCount, ∀ f, m.written i f = true := by
  intro t m
  have haddr : (t.desc (t.patch t.patchCount).desc).addr = (t.desc d).addr := by
    rw [prepared_desc s d]
  have hm : m = (addDynamicPatchWrites env t t.patchCount).foldl Write.apply (beforeWrites s d) :=
    rfl
  simp only [addDynamicPatchWrites, haddr] at hm
  rcases addDynamicPatchToCtx_cases env t haddr with
    ⟨cur, hnode, hadd⟩ | ⟨cur, tail, hcur, hnode, hadd⟩
  · have hstart : (beforeWrites s d).sys = t := by
      have hlink : (addedNode t (t.desc d).addr).2.isSome = false := by rw [hnode]; rfl
      exact congrArg
        (fun b : Bool => { t with nodeCount := if b then t.nodeCount + 1 else t.nodeCount }) hlink
    rw [hnode] at hm
    simp only [Option.map_none, Option.toList_none, List.nil_append, foldl_fillWrites, hstart] at hm
    rw [hm, hadd]
    refine ⟨rfl, fun i hi f => ?_⟩
    have hold : i ≤ s.nodeCount := hi
    simp [beforeWrites, hold]
  · have hstart : (beforeWrites s d).sys = { t with nodeCount := cur } := by
      have hlink : (addedNode t (t.desc d).addr).2.isSome = true := by rw [hnode]; rfl
      rw [hcur]
      exact congrArg
        (fun b : Bool => { t with nodeCount := if b then t.nodeCount + 1 else t.nodeCount }) hlink
    rw [hnode] at hm
    simp only [Option.map_some, Option.toList_some, List.cons_append, List.nil_append,
      List.foldl_cons, foldl_fillWrites, Write.apply, Midway.setField, hstart] at hm
    rw [hm, hadd]
    refine ⟨rfl, fun i hi f => ?_⟩
    have hold : i = cur ∨ i ≤ s.nodeCount := by
      have : i ≤ cur := hi
      have : t.nodeCount = s.nodeCount := rfl
      omega
    rcases hold with hold | hold <;> simp [beforeWrites, hold]

theorem notifyWrites_eq_some {d : ℕ} {ws : List Write} (h : notifyWrites env s d = some ws) :
    ∃ filterWrites, updateBitsFilterWrites env
        (addDynamicPatchToCtx env (prepared s d) (prepared s d).patchCount).1 = some filterWrites ∧
      ws = addDynamicPatchWrites env (prepared s d) (prepared s d).patchCount ++
        (filterWrites ++ [.isActive (prepared s d).patchCount]) := by
  simp only [notifyWrites, Option.bind_eq_bind, Option.bind_eq_some_iff] at h
  obtain ⟨filterWrites, hfilter, heq⟩ := h
  cases heq
  exact ⟨filterWrites, hfilter, rfl⟩

/-- The stores of an installation, one after the other, are
`notify_new_patch`. -/
theorem notifyWrites_refine {d : ℕ} {ws : List Write} (htype : (s.desc d).type = dynamicPatchPoint)
    (hws : notifyWrites env s d = some ws) :
    notifyNewPatch env s d = some (ws.foldl Write.apply (beforeWrites s d)).sys := by
  obtain ⟨filterWrites, hfilter, rfl⟩ := notifyWrites_eq_some hws
  obtain ⟨hsys, -⟩ := foldl_addDynamicPatchWrites env s d
  rw [← hsys] at hfilter
  obtain ⟨t, ht, hwrites⟩ := foldl_updateBitsFilterWrites env _ hfilter
  rw [hsys] at ht
  have hsame : SameBut (prepared s d)
      (addDynamicPatchToCtx env (prepared s d) (prepared s d).patchCount).1 :=
    addDynamicPatchToCtx_same _ _
  have htype' : (t.desc (t.patch (prepared s d).patchCount).desc).type ≠ fixedPatchPoint := by
    obtain ⟨fixed, hfixed, -⟩ := Option.bind_eq_some_iff.mp ht
    rw [updateBitsFilter_eq env hfixed] at ht
    cases ht
    rw [hsame.desc, hsame.patch, prepared_desc]
    simp [prepared, htype, dynamicPatchPoint, fixedPatchPoint]
  have hcount : s.patchCount + 1 = (prepared s d).patchCount := rfl
  rw [notifyNewPatch_dynamic htype, hcount, List.foldl_append, List.foldl_append,
    hwrites, activePatch, ht, Option.bind_eq_bind, Option.bind_some]
  simp only [if_neg htype']
  rfl

/-! ### A patch that stays visible -/

/-- The way to a patch at an address: the nodes in front of its node are not
found by the lookup, and what it reads of them is written. Patches above
`bound` do not occur. -/
structure Leads (m : Midway F) (a : BitVec 32) (bound : ℕ) (front : List ℕ) (i : ℕ) : Prop where
  path : Segment m.sys.next (m.sys.next 0) front (some i)
  room : front.length ≤ m.sys.nodeCount
  written : ∀ j ∈ front, ∀ f, m.written j f = true
  idle : ∀ j ∈ front, foundAt m.sys a j = false
  writtenHere : m.written i .instAddr = true ∧ m.written i .patch = true
  found : foundAt m.sys a i = true
  old : ∀ j ∈ front ++ [i], (m.sys.node j).patch ≤ bound

namespace Leads

variable {a : BitVec 32} {bound i : ℕ} {front : List ℕ}

theorem lookup {q : Option ℕ} {n : ℕ} (hpath : Segment m.sys.next q front (some i))
    (hwritten : ∀ j ∈ front, ∀ f, m.written j f = true)
    (hidle : ∀ j ∈ front, foundAt m.sys a j = false)
    (hhere : m.written i .instAddr = true ∧ m.written i .patch = true)
    (hfound : foundAt m.sys a i = true) (hn : front.length < n) :
    m.lookup a n q = some (some (m.sys.node i).patch) := by
  induction front generalizing q n with
  | nil =>
      obtain rfl : q = some i := hpath
      obtain ⟨n, rfl⟩ := Nat.exists_eq_succ_of_ne_zero (Nat.ne_of_gt hn)
      rw [foundAt] at hfound
      simp [Midway.lookup, hhere, hfound]
  | cons j front ih =>
      obtain ⟨rfl, hpath⟩ := hpath
      obtain ⟨n, rfl⟩ := Nat.exists_eq_succ_of_ne_zero (Nat.ne_of_gt (Nat.zero_lt_of_lt hn))
      have hj := hwritten j List.mem_cons_self
      have hrest := ih hpath (fun k hk => hwritten k (List.mem_cons_of_mem j hk))
        (fun k hk => hidle k (List.mem_cons_of_mem j hk)) (n := n) (by simpa using hn)
      have hskip := hidle j List.mem_cons_self
      rw [foundAt] at hskip
      have hlink : (m.sys.node j).next = m.sys.next j := rfl
      simp [Midway.lookup, hj, hskip, hlink, hrest]

theorem get (h : Leads m a bound front i) (hpass : Passes m.sys.dbitsFilterBpkt a) :
    m.getDynamicPatchByBpkt a = some (some (m.sys.node i).patch) := by
  have hfilter : ¬m.sys.dbitsFilterBpkt &&& a ≠ a := not_not.mpr hpass
  rw [Midway.getDynamicPatchByBpkt, if_neg hfilter]
  exact lookup h.path h.written h.idle h.writtenHere h.found (Nat.lt_succ_of_le h.room)

/-- A store to a node that is not on the way, or to what the lookup does not
read of the patch's own node. -/
theorem setField (h : Leads m a bound front i) {j : ℕ} {field : NodeField} {dp : DynamicPatch}
    (hj : j ∉ 0 :: front)
    (hi : j = i → dp.instAddr = (m.sys.node i).instAddr ∧ dp.patch = (m.sys.node i).patch) :
    Leads (m.setField j field dp) a bound front i := by
  rw [List.mem_cons, not_or] at hj
  obtain ⟨hj0, hjfront⟩ := hj
  have hother : ∀ k ∈ front, (m.sys.setNode j dp).node k = m.sys.node k := by
    intro k hk
    exact setNode_node_of_ne (fun hkj : k = j => hjfront (hkj ▸ hk)) _ _
  have hhere : ((m.sys.setNode j dp).node i).instAddr = (m.sys.node i).instAddr ∧
      ((m.sys.setNode j dp).node i).patch = (m.sys.node i).patch := by
    by_cases hij : i = j
    · subst hij
      rw [setNode_node_self]
      exact hi rfl
    · rw [setNode_node_of_ne hij]
      exact ⟨rfl, rfl⟩
  refine ⟨?_, h.room, ?_, ?_, ?_, ?_, ?_⟩
  · have hnext : (m.sys.setNode j dp).next 0 = m.sys.next 0 := by
      rw [setNode_next, Function.update_of_ne (Ne.symm hj0)]
    show Segment (m.sys.setNode j dp).next ((m.sys.setNode j dp).next 0) front (some i)
    rw [hnext, setNode_next]
    exact h.path.update_of_notMem hjfront _
  · intro k hk f
    simp [Midway.setField, h.written k hk f]
  · intro k hk
    show foundAt (m.sys.setNode j dp) a k = false
    rw [foundAt, hother k hk]
    exact h.idle k hk
  · simp [Midway.setField, h.writtenHere]
  · show foundAt (m.sys.setNode j dp) a i = true
    rw [foundAt, hhere.1, hhere.2]
    exact h.found
  · intro k hk
    show ((m.sys.setNode j dp).node k).patch ≤ bound
    rcases List.mem_append.mp hk with hfront | hi'
    · rw [hother k hfront]
      exact h.old k hk
    · obtain rfl := List.mem_singleton.mp hi'
      rw [hhere.2]
      exact h.old k hk

theorem activate (h : Leads m a bound front i) {p : ℕ} (hp : bound < p) :
    Leads (Write.apply m (.isActive p)) a bound front i := by
  have hsame : ∀ k ∈ front ++ [i], foundAt (Write.apply m (.isActive p)).sys a k =
      foundAt m.sys a k := by
    intro k hk
    have hne : (m.sys.node k).patch ≠ p := by
      have := h.old k hk
      omega
    simp only [foundAt, Write.apply, Function.update_of_ne hne]
    rfl
  refine ⟨h.path, h.room, h.written, ?_, h.writtenHere, ?_, h.old⟩
  · intro k hk
    rw [hsame k (List.mem_append_left _ hk)]
    exact h.idle k hk
  · rw [hsame i (by simp)]
    exact h.found

end Leads

/-- The store leaves alone what the lookup reads on the way. -/
def Write.Avoids (front : List ℕ) (i bound : ℕ) : Write → Prop
  | .next j _ => j ∉ 0 :: front
  | .instAddr j _ | .pcAddr j _ | .patch j _ => j ∉ 0 :: front ∧ j ≠ i
  | .isActive p => bound < p
  | .fbitsFilter _ | .dbitsFilterBpkt _ | .dbitsFilterPc _ => True

section

variable {a : BitVec 32} {bound i : ℕ} {front rest : List ℕ}

theorem Leads.apply {w : Write} (h : Leads m a bound front i) (hw : w.Avoids front i bound) :
    Leads (Write.apply m w) a bound front i := by
  cases w with
  | next j v =>
      refine h.setField hw ?_
      rintro rfl
      exact ⟨rfl, rfl⟩
  | instAddr j v => exact h.setField hw.1 fun hji => absurd hji hw.2
  | pcAddr j v => exact h.setField hw.1 fun hji => absurd hji hw.2
  | patch j p => exact h.setField hw.1 fun hji => absurd hji hw.2
  | fbitsFilter v => exact ⟨h.path, h.room, h.written, h.idle, h.writtenHere, h.found, h.old⟩
  | dbitsFilterBpkt v => exact ⟨h.path, h.room, h.written, h.idle, h.writtenHere, h.found, h.old⟩
  | dbitsFilterPc v => exact ⟨h.path, h.room, h.written, h.idle, h.writtenHere, h.found, h.old⟩
  | isActive p => exact h.activate hw

theorem Write.apply_patch {w : Write} (hw : w.Avoids front i bound) (m : Midway F) :
    ((Write.apply m w).sys.node i).patch = (m.sys.node i).patch := by
  cases w with
  | next j v =>
      by_cases hij : i = j
      · subst hij
        simp [Write.apply, Midway.setField]
      · simp [Write.apply, Midway.setField, setNode_node_of_ne hij]
  | instAddr j v => simp [Write.apply, Midway.setField, setNode_node_of_ne (Ne.symm hw.2)]
  | pcAddr j v => simp [Write.apply, Midway.setField, setNode_node_of_ne (Ne.symm hw.2)]
  | patch j p => simp [Write.apply, Midway.setField, setNode_node_of_ne (Ne.symm hw.2)]
  | _ => rfl

theorem Lists.apart (h : Lists s (front ++ i :: rest)) :
    i ∉ 0 :: front ∧ ∀ j ∈ rest, j ∉ 0 :: front ∧ j ≠ i := by
  have hnodup : ((0 :: front) ++ i :: rest).Nodup := h.chain.nodup
  obtain ⟨-, hback, hdisj⟩ := List.nodup_append.mp hnodup
  rw [List.nodup_cons] at hback
  refine ⟨fun hi => hdisj i hi i List.mem_cons_self rfl, fun j hj => ⟨fun hjf => ?_, ?_⟩⟩
  · exact hdisj j hjf j (List.mem_cons_of_mem i hj) rfl
  · rintro rfl
    exact hback.1 hj

/-- The node written to is behind the patch's own if no node up to that has
the new address, and it is not the last one of a full list. -/
theorem addedNode_avoids (h : Lists s (front ++ i :: rest)) {addr : BitVec 32}
    (hne : ∀ j ∈ front ++ [i], (s.node j).instAddr ≠ addr)
    (hroom : maxDpNum < (front ++ i :: rest).length → rest ≠ []) :
    (addedNode s addr).1 ∉ 0 :: front ∧ (addedNode s addr).1 ≠ i ∧
      ∀ tail, (addedNode s addr).2 = some tail → tail ∉ 0 :: front := by
  obtain ⟨hhere, hbehind⟩ := h.apart
  simp only [addedNode, h.search]
  cases hfind : (front ++ i :: rest).find? fun j => (s.node j).instAddr = addr with
  | some j =>
      -- the node found has the new address, so it is behind
      have haddr : (s.node j).instAddr = addr := by simpa using List.find?_some hfind
      have hmem := List.mem_of_find?_eq_some hfind
      have hj : j ∈ rest := by
        by_contra hj
        exact hne j (by simp at hmem ⊢; tauto) haddr
      exact ⟨(hbehind j hj).1, (hbehind j hj).2, by simp⟩
  | none =>
      have hpassed : ((front ++ i :: rest).takeWhile fun j =>
          !decide ((s.node j).instAddr = addr)) = front ++ i :: rest :=
        List.takeWhile_eq_self_iff.mpr (by simpa using List.find?_eq_none.mp hfind)
      have htail : (front ++ i :: rest).getLastD 0 = rest.getLastD i := by
        simp [List.getLast?_cons]
      simp only [hpassed, htail]
      by_cases hfull : (front ++ i :: rest).length > maxDpNum
      · -- the last node is overwritten
        rw [if_pos hfull]
        have hlast : rest.getLastD i ∈ rest := by
          cases rest with
          | nil => exact absurd rfl (hroom hfull)
          | cons j rest =>
              rw [List.getLastD_cons]
              exact List.getLastD_mem_cons
        exact ⟨(hbehind _ hlast).1, (hbehind _ hlast).2, by simp⟩
      · -- the last node, which may be the patch's own, is linked to a new one
        rw [if_neg hfull]
        have hnew : s.nodeCount + 1 ∉ 0 :: (front ++ i :: rest) := by
          intro hmem
          rcases List.mem_cons.mp hmem with h0 | hmem
          · omega
          · have := h.allocated _ hmem
            omega
        refine ⟨fun hmem => hnew ?_, fun heq => hnew ?_, ?_⟩
        · simp at hmem ⊢
          tauto
        · have heq : s.nodeCount + 1 = i := heq
          simp [heq]
        · intro tail hlink
          cases hlink
          rcases List.mem_cons.mp (List.getLastD_mem_cons (l := rest) (a := i)) with hlast | hlast
          · rw [hlast]
            exact hhere
          · exact (hbehind _ hlast).1

theorem addDynamicPatchWrites_avoid {p : ℕ}
    (h : (addedNode s (s.desc (s.patch p).desc).addr).1 ∉ 0 :: front ∧
      (addedNode s (s.desc (s.patch p).desc).addr).1 ≠ i ∧
      ∀ tail, (addedNode s (s.desc (s.patch p).desc).addr).2 = some tail → tail ∉ 0 :: front) :
    ∀ w ∈ addDynamicPatchWrites env s p, w.Avoids front i bound := by
  obtain ⟨hcur, hcur', hlink⟩ := h
  intro w hw
  simp only [addDynamicPatchWrites, fillWrites, List.mem_append, Option.mem_toList,
    Option.map_eq_some_iff, List.mem_cons, List.not_mem_nil, or_false] at hw
  rcases hw with ⟨tail, htail, rfl⟩ | rfl | rfl | rfl | rfl
  · exact hlink tail htail
  · exact hcur
  · exact ⟨hcur, hcur'⟩
  · exact ⟨hcur, hcur'⟩
  · exact ⟨hcur, hcur'⟩

theorem filterWrites_avoid {ws : List Write} (h : updateBitsFilterWrites env s = some ws) :
    ∀ w ∈ ws, w.Avoids front i bound := by
  have hfixedWrites : ∀ ps bits, ∀ w ∈ fixedFilterWrites s bits ps, w.Avoids front i bound := by
    intro ps
    induction ps with
    | nil => simp [fixedFilterWrites]
    | cons p ps ih =>
        intro bits
        rw [fixedFilterWrites]
        split
        · simpa [Write.Avoids] using ih _
        · exact ih bits
  have hnodeWrites : ∀ l pc bpkt, ∀ w ∈ nodeFilterWrites s pc bpkt l, w.Avoids front i bound := by
    intro l
    induction l with
    | nil => simp [nodeFilterWrites]
    | cons j l ih =>
        intro pc bpkt
        simpa [nodeFilterWrites, Write.Avoids] using ih _ _
  obtain ⟨fixed, hfixed, -⟩ := Option.bind_eq_some_iff.mp h
  rw [updateBitsFilterWrites_eq env hfixed, Option.some.injEq] at h
  subst h
  intro w hw
  simp only [List.cons_append, List.append_assoc, List.mem_cons, List.mem_append,
    List.nil_append] at hw
  rcases hw with rfl | hw | rfl | rfl | hw
  · trivial
  · exact hfixedWrites _ _ w hw
  · trivial
  · trivial
  · exact hnodeWrites _ _ _ w hw

theorem PatchSys.entriesOf_split (s : PatchSys F) (front : List ℕ) (i : ℕ) (rest : List ℕ) :
    s.entriesOf (front ++ i :: rest) =
      s.entriesOf front ++ (s.node i).entry :: s.entriesOf rest := by
  simp [PatchSys.entriesOf]

theorem Lists.split_nodes {p : ℕ} (h : Lists s l) (hp : getDynamicPatchByBpkt s a = some p) :
    ∃ front i rest, l = front ++ i :: rest ∧ foundAt s a i = true ∧ (s.node i).patch = p ∧
      (∀ j ∈ front, foundAt s a j = false) ∧ s.inFront a = s.entriesOf front := by
  unfold getDynamicPatchByBpkt at hp
  split at hp
  · cases hp
  · rw [h.search] at hp
    obtain ⟨i, hfind, hpatch⟩ := Option.map_eq_some_iff.mp hp
    obtain ⟨hi, front, rest, rfl, hfront⟩ := List.find?_eq_some_iff_append.mp hfind
    have hidle : ∀ j ∈ front, foundAt s a j = false := by
      intro j hj
      exact (Bool.not_eq_true' _).mp (hfront j hj)
    refine ⟨front, i, rest, rfl, hi, hpatch, hidle, ?_⟩
    have hskip : ∀ e ∈ s.entriesOf front, (!isActiveAt s a e) = true := by
      intro e he
      obtain ⟨j, hj, rfl⟩ := List.mem_map.mp he
      rw [Bool.not_eq_true']
      exact hidle j hj
    have hstop : isActiveAt s a (s.node i).entry = true := hi
    rw [PatchSys.inFront, h.entries, s.entriesOf_split, List.takeWhile_append_of_pos hskip]
    simp [hstop]

/-- Before the first store the way to the patch is open. -/
theorem Lists.leads (h : Lists s (front ++ i :: rest)) (hfound : foundAt s a i = true)
    (hidle : ∀ j ∈ front, foundAt s a j = false) (d : ℕ) :
    Leads (beforeWrites s d) a s.patchCount front i := by
  have hold : ∀ j ∈ front ++ [i], (s.node j).patch ≤ s.patchCount := by
    intro j hj
    apply h.patches
    simp at hj ⊢
    tauto
  have hsame : ∀ j ∈ front ++ [i], foundAt (beforeWrites s d).sys a j = foundAt s a j := by
    intro j hj
    have hne : (s.node j).patch ≠ s.patchCount + 1 := by
      have := hold j hj
      omega
    have hpatch : (beforeWrites s d).sys.patch (s.node j).patch = s.patch (s.node j).patch :=
      Function.update_of_ne hne _ _
    rw [foundAt, foundAt, ← hpatch]
    rfl
  have hwritten : ∀ j ∈ front ++ [i], ∀ f, (beforeWrites s d).written j f = true := by
    intro j hj f
    have hallocated : j ≤ s.nodeCount := by
      apply h.allocated
      simp at hj ⊢
      tauto
    simpa [beforeWrites] using hallocated
  refine ⟨h.tail.segment, ?_, ?_, ?_, ?_, ?_, hold⟩
  · have hlen := h.length_le
    have hcount : s.nodeCount ≤ (beforeWrites s d).sys.nodeCount := by
      simp only [beforeWrites]
      split
      · exact Nat.le_succ _
      · exact le_rfl
    simp only [List.length_append, List.length_cons] at hlen
    omega
  · exact fun j hj => hwritten j (List.mem_append_left _ hj)
  · intro j hj
    rw [hsame j (List.mem_append_left _ hj)]
    exact hidle j hj
  · exact ⟨hwritten i (by simp) _, hwritten i (by simp) _⟩
  · rw [hsame i (by simp)]
    exact hfound

/-- Once the node is written, the patch is gone if all that is left of the list
are entries in front of it, and the new one. -/
theorem notFound_of_addEntry (h : Lists s l) (hfixed : s.fixedPatches ≠ none) {p d : ℕ}
    (hp : p ≤ s.patchCount) {c : List Entry}
    (hidle : ∀ e ∈ c, isActiveAt s a e = false ∧ e.patch ≤ s.patchCount)
    (hadd : addEntry (s.entriesOf l) ((s.desc d).addr &&& ~~~0x3#32)
      (newEntry env ((s.desc d).addr &&& ~~~0x3#32) (s.patchCount + 1)) =
        c ++ [newEntry env ((s.desc d).addr &&& ~~~0x3#32) (s.patchCount + 1)]) :
    getDynamicPatchByBpkt
      (addDynamicPatchToCtx env (prepared s d) (prepared s d).patchCount).1 a ≠ some p := by
  intro hget
  obtain ⟨l', hl', hentries⟩ := addDynamicPatchToCtx_lists env (lists_prepared h d) hfixed le_rfl
    (prepared_addr s d).symm
  have hleft := hentries.trans hadd
  obtain ⟨e, rest, hsplit, hactive, hpatch, -⟩ := split_of_get hl' hget
  have hmem : e ∈ c ++ [newEntry env ((s.desc d).addr &&& ~~~0x3#32) (s.patchCount + 1)] := by
    rw [← hleft, hsplit]
    simp
  rcases List.mem_append.mp hmem with hmem | hmem
  · -- an old patch is as active as it was
    obtain ⟨hinactive, hold⟩ := hidle e hmem
    have hsame :
        isActiveAt (addDynamicPatchToCtx env (prepared s d) (prepared s d).patchCount).1 a e =
          isActiveAt s a e := by
      apply isActiveAt_congr
      rw [(addDynamicPatchToCtx_same _ _).patch]
      exact Function.update_of_ne (by omega) _ _
    rw [hsame, hinactive] at hactive
    cases hactive
  · -- and the new one is not the patch looked for
    rw [List.mem_singleton.mp hmem] at hpatch
    have hnew : s.patchCount + 1 = p := hpatch
    omega

end

/-- Both filters are cleared in the course of an installation. -/
theorem notifyWrites_clear {d : ℕ} {ws : List Write} (h : notifyWrites env s d = some ws) :
    ∃ before after, ws = before ++ .dbitsFilterBpkt 0 :: .dbitsFilterPc 0 :: after := by
  obtain ⟨filterWrites, hfilter, rfl⟩ := notifyWrites_eq_some h
  obtain ⟨fixed, hfixed, -⟩ := Option.bind_eq_some_iff.mp hfilter
  rw [updateBitsFilterWrites_eq env hfixed, Option.some.injEq] at hfilter
  rw [← hfilter]
  simp only [List.append_assoc]
  rw [← List.append_assoc]
  exact ⟨_, _, rfl⟩

/-- Once the filters are cleared, only the address 0 passes. -/
theorem StaysVisible.eq_zero {d p : ℕ} {a : BitVec 32} (h : StaysVisible env s d a p) : a = 0 := by
  obtain ⟨ws, hws, hall⟩ := h
  obtain ⟨before, after, rfl⟩ := notifyWrites_clear hws
  by_contra ha
  -- the state between the stores that clear the two filters
  have hget := hall _ ⟨before ++ [.dbitsFilterBpkt 0], .dbitsFilterPc 0 :: after,
    by simp, by simp, by simp, rfl⟩
  have hblocked : (0 : BitVec 32) &&& a ≠ a := fun hpass => ha (passes_empty_iff.mp hpass)
  rw [List.foldl_append, List.foldl_cons, List.foldl_nil, Midway.getDynamicPatchByBpkt,
    Write.apply, if_pos hblocked] at hget
  cases hget

/-- Once the fields of the node are written, the lookup is that of the model. -/
theorem StaysVisible.get_added {d p : ℕ} {a : BitVec 32} (h : StaysVisible env s d a p)
    (hl : Lists s l) (hfixed : s.fixedPatches ≠ none) :
    getDynamicPatchByBpkt
      (addDynamicPatchToCtx env (prepared s d) (prepared s d).patchCount).1 a = some p := by
  obtain ⟨ws, hws, hall⟩ := h
  obtain ⟨filterWrites, -, rfl⟩ := notifyWrites_eq_some hws
  obtain ⟨hsys, hwritten⟩ := foldl_addDynamicPatchWrites env s d
  obtain ⟨l', hl', -⟩ := addDynamicPatchToCtx_lists env (lists_prepared hl d) hfixed le_rfl rfl
  have hget := hall _ ⟨addDynamicPatchWrites env (prepared s d) (prepared s d).patchCount, _, rfl,
    by simp [addDynamicPatchWrites, fillWrites], by simp, rfl⟩
  rw [← hsys] at hl'
  rw [Midway.getDynamicPatchByBpkt_eq hl' hwritten, hsys] at hget
  exact Option.some.inj hget

/-- At the address 0, a patch whose node is in front of the node written to
stays visible. -/
theorem staysVisible_of_behind {front rest : List ℕ} {i d : ℕ}
    (hl : Lists s (front ++ i :: rest)) (hfixed : s.fixedPatches ≠ none)
    (hfound : foundAt s 0 i = true) (hidle : ∀ j ∈ front, foundAt s 0 j = false)
    (hne : ∀ e ∈ s.entriesOf (front ++ [i]), e.instAddr ≠ (s.desc d).addr &&& ~~~0x3#32)
    (hroom : maxDpNum < (front ++ i :: rest).length → rest ≠ []) :
    StaysVisible env s d 0 (s.node i).patch := by
  have hadd : ∀ w ∈ addDynamicPatchWrites env (prepared s d) (prepared s d).patchCount,
      w.Avoids front i s.patchCount := by
    apply addDynamicPatchWrites_avoid
    rw [prepared_addr]
    exact addedNode_avoids (lists_prepared hl d) (fun j hj => hne _ (List.mem_map_of_mem hj)) hroom
  obtain ⟨filterWrites, hfilter⟩ : ∃ filterWrites, updateBitsFilterWrites env
      (addDynamicPatchToCtx env (prepared s d) (prepared s d).patchCount).1 =
        some filterWrites := by
    obtain ⟨fixed, hfixed⟩ := Option.ne_none_iff_exists'.mp hfixed
    exact ⟨_,
      updateBitsFilterWrites_eq env ((addDynamicPatchToCtx_same _ _).fixedPatches.trans hfixed)⟩
  have hws : notifyWrites env s d =
      some (addDynamicPatchWrites env (prepared s d) (prepared s d).patchCount ++
        (filterWrites ++ [.isActive (prepared s d).patchCount])) := by
    simp only [notifyWrites, hfilter]
    rfl
  have havoid : ∀ w ∈ addDynamicPatchWrites env (prepared s d) (prepared s d).patchCount ++
      (filterWrites ++ [.isActive (prepared s d).patchCount]), w.Avoids front i s.patchCount := by
    intro w hw
    rcases List.mem_append.mp hw with hw | hw
    · exact hadd w hw
    · rcases List.mem_append.mp hw with hw | hw
      · exact filterWrites_avoid hfilter w hw
      · rw [List.mem_singleton.mp hw]
        exact Nat.lt_succ_self _
  refine ⟨_, hws, fun m hm => ?_⟩
  have hleads := hm.invariant (P := fun m => Leads m 0 s.patchCount front i ∧
      (m.sys.node i).patch = (s.node i).patch)
    (fun u w hw hu => ⟨hu.1.apply (havoid w hw), (Write.apply_patch (havoid w hw) u).trans hu.2⟩)
    ⟨hl.leads hfound hidle d, rfl⟩
  rw [hleads.1.get (passes_zero _), hleads.2]

theorem Lists.idle_entries {front rest : List ℕ} {i : ℕ} {a : BitVec 32}
    (hl : Lists s (front ++ i :: rest)) (hidle : ∀ j ∈ front, foundAt s a j = false) :
    ∀ e ∈ s.entriesOf front, isActiveAt s a e = false ∧ e.patch ≤ s.patchCount := by
  intro e he
  obtain ⟨j, hj, rfl⟩ := List.mem_map.mp he
  exact ⟨hidle j hj, hl.patches j (by simp [hj])⟩

/-- A patch that stays visible is not behind the node for the new address, nor
is that its own. -/
theorem StaysVisible.instAddr_ne {front rest : List ℕ} {i d : ℕ} {a : BitVec 32}
    (h : StaysVisible env s d a (s.node i).patch) (hl : Lists s (front ++ i :: rest))
    (hfixed : s.fixedPatches ≠ none) (hidle : ∀ j ∈ front, foundAt s a j = false) :
    ∀ e ∈ s.entriesOf (front ++ [i]), e.instAddr ≠ (s.desc d).addr &&& ~~~0x3#32 := by
  intro e he haddr
  have hget := h.get_added hl hfixed
  have hold : (s.node i).patch ≤ s.patchCount := hl.patches i (by simp)
  have hinactive := hl.idle_entries hidle
  rw [s.entriesOf_split] at he
  by_cases hbefore : ∃ x ∈ s.entriesOf front, x.instAddr = (s.desc d).addr &&& ~~~0x3#32
  · -- the list is cut off behind that node
    obtain ⟨x, hx, hxaddr⟩ := hbefore
    obtain ⟨c, hc, hadd⟩ := addEntry_drops (b := (s.node i).entry :: s.entriesOf rest) hx hxaddr
      (newEntry env ((s.desc d).addr &&& ~~~0x3#32) (s.patchCount + 1))
    rw [← s.entriesOf_split] at hadd
    exact notFound_of_addEntry hl hfixed hold (fun y hy => hinactive y (hc hy)) hadd hget
  · -- the new patch takes the place of this one
    have hhere : e = (s.node i).entry := by
      rcases List.mem_append.mp he with he | he
      · exact absurd ⟨e, he, haddr⟩ hbefore
      · exact List.mem_singleton.mp he
    refine notFound_of_addEntry hl hfixed hold hinactive ?_ hget
    rw [s.entriesOf_split]
    refine addEntry_of_split ?_ (hhere ▸ haddr) _
    exact fun y hy hyaddr => hbefore ⟨y, hy, hyaddr⟩

/-- Nor is it the last one of a full list, which the new patch overwrites. -/
theorem StaysVisible.rest_ne_nil {front rest : List ℕ} {i d : ℕ} {a : BitVec 32}
    (h : StaysVisible env s d a (s.node i).patch) (hl : Lists s (front ++ i :: rest))
    (hfixed : s.fixedPatches ≠ none) (hidle : ∀ j ∈ front, foundAt s a j = false)
    (hfull : maxDpNum < (front ++ i :: rest).length) : rest ≠ [] := by
  rintro rfl
  refine notFound_of_addEntry hl hfixed (hl.patches i (by simp)) (hl.idle_entries hidle) ?_
    (h.get_added hl hfixed)
  have hlength : (s.entriesOf (front ++ [i])).length > maxDpNum := by
    simpa [PatchSys.entriesOf] using hfull
  rw [addEntry_of_forall_ne (h.instAddr_ne hl hfixed hidle), if_pos hlength, s.entriesOf_split]
  simp [PatchSys.entriesOf]

/-- An active patch can be looked up at every moment of an installation exactly
if it is at the address 0, the node for the new patch's address does not
come before its own, and its own is not the last one of a full list. -/
theorem staysVisible_iff (env : Env F) (s : PatchSys F) (hs : Reachable env s) (a : BitVec 32)
    (p : ℕ) (hp : getDynamicPatchByBpkt s a = some p) (d : ℕ) :
    StaysVisible env s d a p ↔
      a = 0 ∧
      (∀ e ∈ s.entries.take ((s.inFront a).length + 1),
        e.instAddr ≠ (s.desc d).addr &&& ~~~0x3#32) ∧
      (maxDpNum < s.entries.length → (s.inFront a).length + 1 < s.entries.length) := by
  obtain ⟨l, hl⟩ := hs.lists
  obtain ⟨front, i, rest, rfl, hfound, rfl, hidle, hfront⟩ := hl.split_nodes hp
  have hfixed : s.fixedPatches ≠ none := fun hnone => by simpa using hl.fixed hnone
  have hlen : (s.entriesOf front).length = front.length := List.length_map _
  have htake : s.entries.take ((s.inFront a).length + 1) = s.entriesOf (front ++ [i]) := by
    rw [hfront, hl.entries, s.entriesOf_split, s.entriesOf_split, List.take_append]
    simp [PatchSys.entriesOf, List.take_of_length_le]
  have hlength : s.entries.length = (front ++ i :: rest).length := by
    rw [hl.entries]
    exact List.length_map _
  rw [htake, hlength, hfront, hlen]
  constructor
  · intro hvisible
    refine ⟨hvisible.eq_zero, hvisible.instAddr_ne hl hfixed hidle, fun hfull => ?_⟩
    have hbehind := List.length_pos_iff.mpr (hvisible.rest_ne_nil hl hfixed hidle hfull)
    simp only [List.length_append, List.length_cons]
    omega
  · rintro ⟨rfl, hne, hroom⟩
    refine staysVisible_of_behind hl hfixed hfound hidle hne fun hfull => ?_
    rintro rfl
    simpa using hroom hfull

def patchedAtZero : Option (PatchSys (List (BitVec 32 × ℕ))) :=
  (initPatchSys listEnv threeDescs).bind fun s => notifyNewPatch listEnv
    { s with desc := Function.update s.desc 1 { type := dynamicPatchPoint, addr := 0 } } 1

theorem patchedAtZero_reachable {s : PatchSys (List (BitVec 32 × ℕ))}
    (h : patchedAtZero = some s) : Reachable listEnv s := by
  obtain ⟨s₀, hinit, hs⟩ := Option.bind_eq_some_iff.mp h
  exact .notifyNewPatch 1 (.writeDesc 1 _ (.initPatchSys (.boot rfl rfl rfl) hinit)) hs

theorem patch_at_zero_stays :
    ∃ s, patchedAtZero = some s ∧ getDynamicPatchByBpkt s 0 = some 1 ∧
      StaysVisible listEnv s 2 0 1 := by
  obtain ⟨s, hs⟩ : ∃ s, patchedAtZero = some s := Option.isSome_iff_exists.mp (by decide)
  have hget : getDynamicPatchByBpkt s 0 = some 1 := by
    have hrun : patchedAtZero.map (fun s => getDynamicPatchByBpkt s 0) = some (some 1) := by decide
    rw [hs] at hrun
    exact Option.some.inj hrun
  refine ⟨s, hs, hget, (staysVisible_iff listEnv s (patchedAtZero_reachable hs) 0 1 hget 2).mpr ?_⟩
  have hrun : patchedAtZero.all (fun s =>
      decide (∀ e ∈ s.entries.take ((s.inFront 0).length + 1),
        e.instAddr ≠ (s.desc 2).addr &&& ~~~0x3#32) &&
      decide (maxDpNum < s.entries.length → (s.inFront 0).length + 1 < s.entries.length)) =
        true := by
    decide
  rw [hs, Option.all_some, Bool.and_eq_true, decide_eq_true_eq, decide_eq_true_eq] at hrun
  exact ⟨rfl, hrun⟩

/-- While a patch at `0x08000200` is being installed, a lookup may miss the
active patch at `0x08000100`. -/
theorem second_installation_hides_first :
    Reachable listEnv (contextAfter [1]) ∧
      getDynamicPatchByBpkt (contextAfter [1]) 0x08000100 = some 1 ∧
      ((contextAfter [1]).desc 2).type = dynamicPatchPoint ∧
      ((contextAfter [1]).desc 2).addr = 0x08000200 ∧
      ¬StaysVisible listEnv (contextAfter [1]) 2 0x08000100 1 := by
  have hrun := installed_eq_contextAfter [1] (by decide)
  refine ⟨installed_reachable hrun, by decide, by decide, by decide, fun h => ?_⟩
  exact absurd h.eq_zero (by decide)

end RapidPatch.Hotpatch
