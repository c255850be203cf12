import Mathlib.Data.List.Induction
import RapidPatch.Hotpatch.Fpb

/-!
Which patches have a breakpoint.

The list of dynamic patches and the comparators are two tables of different
sizes that forget their entries by different rules. A patch just installed is
in both, at the word its descriptor's address lies in
(`notifyNewPatch_takes_effect`). The comparators are taken in turn, whatever
they hold, and the list may still hold the patch a comparator loses: all
listed patches stay armed exactly as long as no installation takes the
comparator of a patch that stays listed (`armed_throughout_iff`).
-/

namespace RapidPatch.Hotpatch

open RapidPatch.Support

/-! ### Addresses in comparators -/

section

variable {a : BitVec 32}

theorem and_two_of_aligned (h : a.toNat % 4 = 0) : a &&& 0x2 = 0 := by
  rw [← and_not_three_of_aligned h, BitVec.and_assoc]
  simp

theorem and_codeRegion (hlt : a.toNat < 0x20000000) : a &&& 0x1fffffff = a :=
  and_low_of_lt a (k := 29) hlt (by decide)

theorem and_addrField (h : a.toNat % 4 = 0) (hlt : a.toNat < 0x20000000) :
    a &&& 0x1ffffffc = a := by
  have hmask : (0x1ffffffc : BitVec 32) = 0x1fffffff &&& ~~~0x3#32 := by decide
  rw [hmask, ← BitVec.and_assoc, and_codeRegion hlt, and_not_three_of_aligned h]

theorem ushiftRight_codeRegion (hlt : a.toNat < 0x20000000) : a >>> 30 = 0 := by
  apply BitVec.eq_of_toNat_eq
  rw [BitVec.toNat_ushiftRight, Nat.shiftRight_eq_div_pow]
  exact Nat.div_eq_of_lt (by omega)

theorem not_ge_of_lt (hlt : a.toNat < 0x20000000) : ¬a ≥ 0x20000000 := by
  rw [ge_iff_le, BitVec.le_def]
  exact Nat.not_le.mpr hlt

theorem fpComp_of_aligned (h : a.toNat % 4 = 0) : fpComp a = a ||| 0x40000001 := by
  rw [fpComp, and_two_of_aligned h, and_not_three_of_aligned h, BitVec.or_assoc]
  rfl

theorem compAddr_fpComp (h : a.toNat % 4 = 0) (hlt : a.toNat < 0x20000000) :
    compAddr (fpComp a) = a := by
  have hfield : fpComp a &&& 0x1ffffffc = a := by
    rw [fpComp_of_aligned h, BitVec.and_or_distrib_right, and_addrField h hlt]
    simp
  have hreplace : fpComp a >>> 30 ≠ 0x2 := by
    rw [fpComp_of_aligned h, BitVec.ushiftRight_or_distrib, ushiftRight_codeRegion hlt]
    decide
  simp only [compAddr, hfield, if_neg hreplace]

theorem compEnabled_fpComp (a : BitVec 32) : compEnabled (fpComp a) := by
  have hbit : fpComp a &&& 0x1 = 0x1 := by
    rw [fpComp, BitVec.and_or_distrib_right, BitVec.and_or_distrib_right]
    split <;> simp [BitVec.and_assoc]
  rw [compEnabled, hbit]
  decide

/-- The address a patch is listed at is what its comparator breaks at. -/
theorem calcBpktAddr_eq_compAddr (a : BitVec 32) : calcBpktAddr a = compAddr (fpComp a) := rfl

theorem calcBpktAddr_of_aligned (h : a.toNat % 4 = 0) (hlt : a.toNat < 0x20000000) :
    calcBpktAddr a = a := by
  rw [calcBpktAddr_eq_compAddr, compAddr_fpComp h hlt]

end

structure CodeWord (a : BitVec 32) : Prop where
  aligned : a.toNat % 4 = 0
  lt : a.toNat < 0x20000000

theorem CodeWord.of_and {a : BitVec 32} (h : a.toNat < 0x20000000) :
    CodeWord (a &&& ~~~0x3#32) := by
  constructor <;> rw [toNat_and_not_three] <;> omega

theorem fpComp_injective {a b : BitVec 32} (ha : CodeWord a) (hb : CodeWord b)
    (h : fpComp a = fpComp b) : a = b := by
  rw [← compAddr_fpComp ha.aligned ha.lt, ← compAddr_fpComp hb.aligned hb.lt, h]

/-! ### Taking a comparator -/

/-- `bpkt_info` counts all comparators. -/
def Fpb.Counted (f : Fpb) : Prop := f.bpktIsInit = true → f.bpktNum = maxBp

structure Fpb.Monitor (f : Fpb) : Prop where
  mode : f.remapActive = false
  counted : f.Counted

def Fpb.Holds (f : Fpb) (a : BitVec 32) : Prop := ∃ i < maxBp, f.comp i = fpComp a

instance Fpb.Holds.decidable (f : Fpb) (a : BitVec 32) : Decidable (f.Holds a) :=
  inferInstanceAs (Decidable (∃ i < maxBp, _))

def Fpb.nextComp (f : Fpb) : ℕ := if f.bpktIsInit = true ∧ f.curIdx < maxBp then f.curIdx else 0

theorem Fpb.nextComp_lt (f : Fpb) : f.nextComp < maxBp := by
  unfold Fpb.nextComp
  split
  · exact (‹_ ∧ _›).2
  · decide

/-- The unit as `add_hw_bkpt` hands it on, `cur_idx` in range. -/
def Fpb.ready (f : Fpb) : Fpb :=
  { f with
    curIdx := f.nextComp
    bpktNum := maxBp
    bpktIsInit := true }

section

variable (flash : BitVec 32 → BitVec 16) (handler : ℕ → BitVec 32) {f : Fpb} {a : BitVec 32}

theorem addHwBkpt_ready (h : f.Counted) (ha : a.toNat < 0x20000000) :
    addHwBkpt flash handler f a =
      if f.remapActive then addFpbBkpt flash handler f.ready a else addNormalBkpt f.ready a := by
  have hlt : ¬a ≥ 0x20000000 := not_ge_of_lt ha
  obtain ⟨ctrl, comp, curIdx, bpktNum, bpktIsInit, remapActive, remapInst⟩ := f
  -- only the first call counts the comparators
  cases bpktIsInit with
  | false =>
      simp only [addHwBkpt, Bool.not_false, if_true, if_neg hlt]
      rfl
  | true =>
      obtain rfl : bpktNum = maxBp := h rfl
      by_cases hidx : curIdx < maxBp
      · have hnext :
            Fpb.nextComp ⟨ctrl, comp, curIdx, maxBp, true, remapActive, remapInst⟩ = curIdx :=
          if_pos ⟨rfl, hidx⟩
        have hge : ¬curIdx ≥ maxBp := Nat.not_le.mpr hidx
        simp only [addHwBkpt, Fpb.ready, Bool.not_true, Bool.false_eq_true, if_false, if_neg hlt,
          if_neg hge, hnext]
      · have hnext :
            Fpb.nextComp ⟨ctrl, comp, curIdx, maxBp, true, remapActive, remapInst⟩ = 0 :=
          if_neg fun h => hidx h.2
        have hge : curIdx ≥ maxBp := Nat.not_lt.mp hidx
        simp only [addHwBkpt, Fpb.ready, Bool.not_true, Bool.false_eq_true, if_false, if_neg hlt,
          if_pos hge, hnext]

/-- In debug-monitor mode, `add_hw_bkpt` brings the index into range and calls
`add_normal_bkpt`. -/
theorem addHwBkpt_eq (h : f.Monitor) (ha : a.toNat < 0x20000000) :
    addHwBkpt flash handler f a = addNormalBkpt { f with
      curIdx := f.nextComp
      bpktNum := maxBp
      bpktIsInit := true } a := by
  rw [addHwBkpt_ready flash handler h.counted ha, if_neg (by simp [h.mode])]
  rfl

/-- An address that is held already changes nothing, another one takes the
next comparator. -/
theorem addHwBkpt_monitor (h : f.Monitor) (ha : a.toNat < 0x20000000) :
    (addHwBkpt flash handler f a).1.Monitor ∧
      (f.Holds a ∧ (addHwBkpt flash handler f a).1.comp = f.comp ∨
        ¬f.Holds a ∧ (addHwBkpt flash handler f a).1.comp =
          Function.update f.comp f.nextComp (fpComp a)) := by
  rw [addHwBkpt_eq flash handler h ha, addNormalBkpt]
  cases hfind : (List.range maxBp).find? fun i => f.comp i = fpComp a with
  | some i =>
      have hi := List.mem_range.mp (List.mem_of_find?_eq_some hfind)
      have hcomp : f.comp i = fpComp a := by simpa using List.find?_some hfind
      exact ⟨⟨h.mode, fun _ => rfl⟩, .inl ⟨⟨i, hi, hcomp⟩, rfl⟩⟩
  | none =>
      have hnone : ¬f.Holds a := by
        rintro ⟨i, hi, hcomp⟩
        simpa [hcomp] using List.find?_eq_none.mp hfind i (List.mem_range.mpr hi)
      exact ⟨⟨h.mode, fun _ => rfl⟩, .inr ⟨hnone, rfl⟩⟩

theorem addHwBkpt_holds (h : f.Monitor) (ha : a.toNat < 0x20000000) :
    (addHwBkpt flash handler f a).1.Holds a := by
  obtain ⟨-, ⟨⟨i, hi, hcomp⟩, hsame⟩ | ⟨-, hnew⟩⟩ := addHwBkpt_monitor flash handler h ha
  · exact ⟨i, hi, by rw [hsame, hcomp]⟩
  · exact ⟨f.nextComp, f.nextComp_lt, by rw [hnew, Function.update_self]⟩

/-- In either mode a comparator is taken with nothing else counted. -/
theorem addHwBkpt_counted (h : f.Counted) : (addHwBkpt flash handler f a).1.Counted := by
  have hnormal : ∀ g : Fpb, g.Counted → (addNormalBkpt g a).1.Counted := by
    intro g hg
    unfold addNormalBkpt
    split <;> exact hg
  have hfpb : ∀ g : Fpb, g.Counted → (addFpbBkpt flash handler g a).1.Counted := by
    intro g hg
    simp only [addFpbBkpt]
    split <;> split <;> exact hg
  have hmode : ∀ g : Fpb, g.Counted →
      (if g.remapActive then addFpbBkpt flash handler g a else addNormalBkpt g a).1.Counted := by
    intro g hg
    split
    · exact hfpb g hg
    · exact hnormal g hg
  have hstart : (if !f.bpktIsInit then
      { f with curIdx := 0, bpktNum := getHwBkptNum, bpktIsInit := true } else f).Counted := by
    split
    · exact fun _ => rfl
    · exact h
  unfold addHwBkpt
  generalize (if !f.bpktIsInit then
      { f with curIdx := 0, bpktNum := getHwBkptNum, bpktIsInit := true } else f) = g at hstart
  have hwrap : (if g.curIdx ≥ maxBp then { g with curIdx := 0 } else g).Counted := by
    split <;> exact hstart
  dsimp only
  split
  · exact hstart
  · exact hmode _ hwrap

end

def Fpb.BreaksAt (f : Fpb) (loc : BitVec 32) : Prop :=
  ∃ i < maxBp, compEnabled (f.comp i) ∧ compAddr (f.comp i) = loc

instance Fpb.BreaksAt.decidable (f : Fpb) (loc : BitVec 32) : Decidable (f.BreaksAt loc) :=
  inferInstanceAs (Decidable (∃ i < maxBp, _))

theorem Fpb.Holds.breaksAt {f : Fpb} {a : BitVec 32} (h : f.Holds a) (ha : CodeWord a) :
    f.BreaksAt a := by
  obtain ⟨i, hi, hcomp⟩ := h
  refine ⟨i, hi, ?_⟩
  rw [hcomp]
  exact ⟨compEnabled_fpComp a, compAddr_fpComp ha.aligned ha.lt⟩

/-! ### A patch just installed -/

variable {F : Type} {env : Env F} {handler : ℕ → BitVec 32} {s s' : PatchSys F} {l : List ℕ}

theorem NotifiedOf.armPatch {d : ℕ} {l' : List ℕ} (h : NotifiedOf env s l d s' l')
    (handler : ℕ → BitVec 32) (htype : (s.desc d).type = dynamicPatchPoint) (f : Fpb) :
    armPatch env handler f (s'.desc d) = (addHwBkpt env.flash handler f (s.wordAddr d)).1 := by
  rw [h.desc, Function.update_self, Hotpatch.armPatch, if_pos htype]

theorem NotifiedOf.lookup_new {d : ℕ} {l' : List ℕ} (h : NotifiedOf env s l d s' l')
    (hword : CodeWord (s.wordAddr d)) :
    getDynamicPatchByBpkt s' (s.wordAddr d) = some (s.patchCount + 1) := by
  have hentries := h.entries
  rw [addEntry_eq] at hentries
  refine get_of_split h.lists h.filter hentries ?_ ?_
  · simp [isActiveAt, newEntry, calcBpktAddr_of_aligned hword.aligned hword.lt, h.new]
  · intro x hx
    simp [isActiveAt, keptEntries_ne x hx]

theorem NotifiedOf.eq_of_lookup_new {d : ℕ} {l' : List ℕ} (h : NotifiedOf env s l d s' l')
    (hl : Lists s l) {a : BitVec 32} (ha : getDynamicPatchByBpkt s' a = some (s.patchCount + 1)) :
    a = calcBpktAddr (s.wordAddr d) := by
  obtain ⟨e, rest, hsplit, he, hpatch, -⟩ := split_of_get h.lists ha
  have haddr : e.instAddr = a := by
    simp only [isActiveAt, Bool.and_eq_true, decide_eq_true_eq] at he
    exact he.1
  have hmem : e ∈ keptEntries (s.entriesOf l) (s.wordAddr d) ++
      [newEntry env (s.wordAddr d) (s.patchCount + 1)] := by
    rw [← addEntry_eq, ← h.entries, hsplit]
    simp
  rcases List.mem_append.mp hmem with hkept | hnew
  · have hold := hl.patch_le ((keptEntries_initial _ _).subset hkept)
    omega
  · rw [← haddr, List.mem_singleton.mp hnew]
    rfl

namespace PatchedDevice

variable {m m' : PatchedDevice F}

theorem armPatch_counted {f : Fpb} (h : f.Counted) (desc : PatchDesc) :
    (armPatch env handler f desc).Counted := by
  unfold armPatch
  split
  · exact addHwBkpt_counted env.flash handler h
  · exact h

/-- The context of a reachable device is reachable, and `bpkt_info` counts the
comparators. -/
theorem Reachable.parts (h : m.Reachable env handler) :
    Hotpatch.Reachable env m.sys ∧ m.fpb.Counted := by
  induction h with
  | boot hsys hfpb _ => exact ⟨.boot hsys.1 hsys.2.1 hsys.2.2, by simp [Fpb.Counted, hfpb]⟩
  | setPatchMode _ mode _ ih =>
      refine ⟨ih.1, ?_⟩
      unfold Hotpatch.setPatchMode
      split
      · exact ih.2
      · split <;> exact ih.2
  | initPatchSys _ hm ih =>
      obtain ⟨t, ht, heq⟩ := Option.bind_eq_some_iff.mp hm
      cases heq
      exact ⟨.initPatchSys ih.1 ht, ih.2⟩
  | notifyNewPatch d _ hm ih =>
      obtain ⟨t, ht, heq⟩ := Option.bind_eq_some_iff.mp hm
      cases heq
      exact ⟨.notifyNewPatch d ih.1 ht, armPatch_counted ih.2 _⟩
  | loadLocalPatchToCtx p _ hp hm ih =>
      obtain ⟨t, ht, heq⟩ := Option.bind_eq_some_iff.mp hm
      cases heq
      exact ⟨.loadLocalPatchToCtx p ih.1 hp ht, armPatch_counted ih.2 _⟩
  | destroyPatchContext _ ih => exact ⟨.destroyPatchContext ih.1, ih.2⟩
  | writeDesc d desc _ ih => exact ⟨.writeDesc d desc ih.1, ih.2⟩
  | allocPatch d _ ih => exact ⟨.allocPatch d ih.1, ih.2⟩

end PatchedDevice

/-- A dynamic patch in the code region, just installed, is found at the word
its descriptor's address lies in, and has a breakpoint there. At the address
itself it is found only if that is the address of a word. -/
theorem notifyNewPatch_takes_effect (env : Env F) (handler : ℕ → BitVec 32) (m : PatchedDevice F)
    (hm : m.Reachable env handler) (hinit : m.sys.ctxInit = true)
    (hmode : m.fpb.remapActive = false) (d : ℕ) (htype : (m.sys.desc d).type = dynamicPatchPoint)
    (hlt : (m.sys.desc d).addr.toNat < 0x20000000) :
    ∃ m', m.notifyNewPatch env handler d = some m' ∧
      getDynamicPatchByBpkt m'.sys (m.sys.wordAddr d) = some (m.sys.patchCount + 1) ∧
      m'.fpb.BreaksAt (m.sys.wordAddr d) ∧
      (getDynamicPatchByBpkt m'.sys (m.sys.desc d).addr = some (m.sys.patchCount + 1) ↔
        (m.sys.desc d).addr.toNat % 4 = 0) := by
  obtain ⟨hsys, hcounted⟩ := hm.parts
  obtain ⟨l, hl⟩ := hsys.lists
  obtain ⟨s', l', hnotify, hn⟩ :=
    notifyNewPatch_notified env hl (hsys.fixedPatches_ne_none hinit) htype
  have hword : CodeWord (m.sys.wordAddr d) := .of_and hlt
  have hlookup := hn.lookup_new hword
  refine ⟨⟨s', armPatch env handler m.fpb (s'.desc d)⟩, ?_, hlookup, ?_, ?_, ?_⟩
  · rw [PatchedDevice.notifyNewPatch, hnotify]
    rfl
  · rw [hn.armPatch handler htype]
    exact (addHwBkpt_holds env.flash handler ⟨hmode, hcounted⟩ hword.lt).breaksAt hword
  · intro hfound
    have heq := hn.eq_of_lookup_new hl hfound
    rw [calcBpktAddr_of_aligned hword.aligned hword.lt] at heq
    rw [heq]
    exact hword.aligned
  · intro halign
    rwa [← wordAddr_of_aligned halign]

/-- A device in debug-monitor mode with an initialised context and a clear
unit, and dynamic descriptors for `0x08000102`. -/
def clearDevice : PatchedDevice (List (BitVec 32 × ℕ)) where
  sys := { contextAfter [] with
    desc := fun _ => { type := dynamicPatchPoint, addr := 0x08000102 } }
  fpb :=
    { ctrl := 0, comp := fun _ => 0, curIdx := 0, bpktNum := 0, bpktIsInit := false
      remapActive := false, remapInst := fun _ => 0 }

/-- `clearDevice` before its context is initialised. -/
def bootDevice : PatchedDevice (List (BitVec 32 × ℕ)) where
  sys := { threeDescs with
    desc := fun _ => { type := dynamicPatchPoint, addr := 0x08000102 } }
  fpb := clearDevice.fpb

theorem clearDevice_reachable (handler : ℕ → BitVec 32) :
    clearDevice.Reachable listEnv handler :=
  .initPatchSys (.boot (m := bootDevice) ⟨rfl, rfl, rfl⟩ rfl rfl) rfl

theorem clearDevice_takes_effect :
    ∃ m', clearDevice.notifyNewPatch listEnv (fun _ => 0) 1 = some m' ∧
      getDynamicPatchByBpkt m'.sys 0x08000100 = some 1 ∧ m'.fpb.BreaksAt 0x08000100 := by
  obtain ⟨m', hm', hfound, hbreaks, -⟩ := notifyNewPatch_takes_effect listEnv (fun _ => 0)
    clearDevice (clearDevice_reachable _) rfl rfl 1 rfl (by decide)
  exact ⟨m', hm', hfound, hbreaks⟩

/-- A patch that names the halfword address `0x08000102` is neither found there
nor is there a breakpoint. -/
theorem halfword_patch_takes_no_effect :
    clearDevice.Reachable listEnv (fun _ => 0) ∧ clearDevice.sys.ctxInit = true ∧
      clearDevice.fpb.remapActive = false ∧
      clearDevice.sys.desc 1 = { type := dynamicPatchPoint, addr := 0x08000102 } ∧
      ∃ m', clearDevice.notifyNewPatch listEnv (fun _ => 0) 1 = some m' ∧
        getDynamicPatchByBpkt m'.sys 0x08000102 = none ∧ ¬m'.fpb.BreaksAt 0x08000102 := by
  refine ⟨clearDevice_reachable _, rfl, rfl, rfl, ?_⟩
  refine ⟨(clearDevice.notifyNewPatch listEnv (fun _ => 0) 1).get (by decide), ?_, ?_, ?_⟩
  · exact (Option.some_get _).symm
  · decide
  · decide

/-! ### The two tables in step -/

/-- The comparators are clear or set to words, each to another one. -/
structure Fpb.Spread (f : Fpb) : Prop where
  monitor : f.Monitor
  comps : ∀ i < maxBp, f.comp i = 0 ∨ ∃ a, CodeWord a ∧ f.comp i = fpComp a
  distinct : ∀ i < maxBp, ∀ j < maxBp, f.comp i = f.comp j → f.comp i ≠ 0 → i = j

theorem Fpb.Spread.addHwBkpt {f : Fpb} (h : f.Spread) {a : BitVec 32} (ha : CodeWord a)
    (flash : BitVec 32 → BitVec 16) (handler : ℕ → BitVec 32) :
    (addHwBkpt flash handler f a).1.Spread := by
  obtain ⟨hmonitor, ⟨-, hcomp⟩ | ⟨hfree, hcomp⟩⟩ :=
    addHwBkpt_monitor flash handler h.monitor ha.lt
  · refine ⟨hmonitor, ?_, ?_⟩ <;> rw [hcomp]
    · exact h.comps
    · exact h.distinct
  · have hnew : ∀ i < maxBp, f.comp i ≠ fpComp a := fun i hi heq => hfree ⟨i, hi, heq⟩
    refine ⟨hmonitor, ?_, ?_⟩ <;> rw [hcomp]
    · intro i hi
      by_cases hnext : i = f.nextComp
      · right
        exact ⟨a, ha, by rw [hnext, Function.update_self]⟩
      · rw [Function.update_of_ne hnext]
        exact h.comps i hi
    · -- the address was in no comparator, so the one that takes it differs from all others
      intro i hi j hj heq hne
      by_cases hinext : i = f.nextComp
      · by_cases hjnext : j = f.nextComp
        · rw [hinext, hjnext]
        · rw [hinext, Function.update_self, Function.update_of_ne hjnext] at heq
          exact absurd heq.symm (hnew j hj)
      · by_cases hjnext : j = f.nextComp
        · rw [hjnext, Function.update_self, Function.update_of_ne hinext] at heq
          exact absurd heq (hnew i hi)
        · rw [Function.update_of_ne hinext, Function.update_of_ne hjnext] at heq
          rw [Function.update_of_ne hinext] at hne
          exact h.distinct i hi j hj heq hne

/-- What holds of the list and of the comparators when all installations are
of dynamic patches in the code region. -/
structure Tables (m : PatchedDevice F) (l : List ℕ) : Prop where
  lists : Lists m.sys l
  fixed : m.sys.fixedPatches ≠ none
  filter : m.sys.dbitsFilterBpkt = filterBits (m.sys.entriesOf l)
  active : ∀ e ∈ m.sys.entriesOf l, (m.sys.patch e.patch).isActive = true
  words : ∀ e ∈ m.sys.entriesOf l, CodeWord e.instAddr
  unit : m.fpb.Spread

/-- Each patch that can be looked up has a breakpoint at its address. -/
def Armed (m : PatchedDevice F) : Prop :=
  ∀ loc p, getDynamicPatchByBpkt m.sys loc = some p → m.fpb.BreaksAt loc

section

variable {m m' : PatchedDevice F}

theorem fpComp_ne_zero (a : BitVec 32) : fpComp a ≠ 0 := by
  intro h
  have henabled := compEnabled_fpComp a
  rw [h] at henabled
  exact absurd henabled (by decide)

theorem Tables.breaksAt_iff (h : Tables m l) {a : BitVec 32} (ha : CodeWord a) :
    m.fpb.BreaksAt a ↔ m.fpb.Holds a := by
  refine ⟨?_, fun hholds => hholds.breaksAt ha⟩
  rintro ⟨i, hi, henabled, haddr⟩
  rcases h.unit.comps i hi with hzero | ⟨b, hb, hcomp⟩
  · rw [hzero] at henabled
    exact absurd henabled (by decide)
  · rw [hcomp, compAddr_fpComp hb.aligned hb.lt] at haddr
    exact ⟨i, hi, by rw [hcomp, haddr]⟩

theorem Tables.lookup_isSome_iff (h : Tables m l) (loc : BitVec 32) :
    (∃ p, getDynamicPatchByBpkt m.sys loc = some p) ↔
      ∃ e ∈ m.sys.entriesOf l, e.instAddr = loc := by
  constructor
  · rintro ⟨p, hp⟩
    obtain ⟨e, rest, hsplit, he, -, -⟩ := split_of_get h.lists hp
    simp only [isActiveAt, Bool.and_eq_true, decide_eq_true_eq] at he
    exact ⟨e, by simp [hsplit], he.1⟩
  · rintro ⟨e, he, rfl⟩
    have hcovers : m.sys.dbitsFilterBpkt &&& e.instAddr = e.instAddr := by
      rw [h.filter]
      exact filterBits_covers he
    have htest : isActiveAt m.sys e.instAddr e = true := by simp [isActiveAt, h.active e he]
    obtain ⟨x, hx⟩ := Option.isSome_iff_exists.mp (List.find?_isSome.mpr ⟨e, he, htest⟩)
    refine ⟨x.patch, ?_⟩
    rw [getDynamicPatchByBpkt_eq h.lists, if_neg (by simp [hcovers]), hx]
    rfl

theorem Tables.armed_iff (h : Tables m l) :
    Armed m ↔ ∀ e ∈ m.sys.entriesOf l, m.fpb.Holds e.instAddr := by
  constructor
  · intro harmed e he
    obtain ⟨p, hp⟩ := (h.lookup_isSome_iff e.instAddr).mpr ⟨e, he, rfl⟩
    exact (h.breaksAt_iff (h.words e he)).mp (harmed e.instAddr p hp)
  · intro hholds loc p hp
    obtain ⟨e, he, rfl⟩ := (h.lookup_isSome_iff loc).mp ⟨p, hp⟩
    exact (h.breaksAt_iff (h.words e he)).mpr (hholds e he)

def PatchedDevice.install (env : Env F) (handler : ℕ → BitVec 32) (m : PatchedDevice F)
    (x : ℕ × BitVec 32) : Option (PatchedDevice F) :=
  let desc : PatchDesc := { type := dynamicPatchPoint, addr := x.2 }
  { m with sys := { m.sys with desc := Function.update m.sys.desc x.1 desc } }.notifyNewPatch
    env handler x.1

def PatchedDevice.installAll (env : Env F) (handler : ℕ → BitVec 32) (m : PatchedDevice F)
    (xs : List (ℕ × BitVec 32)) : Option (PatchedDevice F) :=
  xs.foldlM (PatchedDevice.install env handler) m

/-- The comparator that an installation takes, if it takes one, is not that of
a patch that stays listed. -/
def SparesListed (m : PatchedDevice F) (addr : BitVec 32) : Prop :=
  m.fpb.Holds (addr &&& ~~~0x3#32) ∨
    ∀ e ∈ keptEntries m.sys.entries (addr &&& ~~~0x3#32),
      m.fpb.comp m.fpb.nextComp ≠ fpComp e.instAddr

instance SparesListed.decidable (m : PatchedDevice F) (addr : BitVec 32) :
    Decidable (SparesListed m addr) := inferInstanceAs (Decidable (_ ∨ _))

/-- What an installation does to the two tables. -/
structure InstalledAt (m : PatchedDevice F) (addr : BitVec 32) (m' : PatchedDevice F) : Prop where
  kept : ∀ e ∈ keptEntries m.sys.entries addr, e ∈ m'.sys.entries
  listed : ∀ e ∈ m'.sys.entries, e ∈ keptEntries m.sys.entries addr ∨ e.instAddr = addr
  comp : m.fpb.Holds addr ∧ m'.fpb.comp = m.fpb.comp ∨
    ¬m.fpb.Holds addr ∧ m'.fpb.comp = Function.update m.fpb.comp m.fpb.nextComp (fpComp addr)

theorem Tables.install (env : Env F) (handler : ℕ → BitVec 32) (h : Tables m l) (x : ℕ × BitVec 32)
    (hlt : x.2.toNat < 0x20000000) :
    ∃ m' l', m.install env handler x = some m' ∧ Tables m' l' ∧
      InstalledAt m (x.2 &&& ~~~0x3#32) m' := by
  obtain ⟨d, addr⟩ := x
  have hword : CodeWord (addr &&& ~~~0x3#32) := .of_and hlt
  let s : PatchSys F :=
    { m.sys with desc := Function.update m.sys.desc d { type := dynamicPatchPoint, addr := addr } }
  have hdesc : s.desc d = { type := dynamicPatchPoint, addr := addr } := Function.update_self ..
  have hs : Lists s l := h.lists.congr rfl le_rfl le_rfl id
  have hwordAddr : s.wordAddr d = addr &&& ~~~0x3#32 := by rw [PatchSys.wordAddr, hdesc]
  obtain ⟨s', l', hnotify, hn⟩ :=
    notifyNewPatch_notified env hs h.fixed (d := d) (by rw [hdesc])
  have hentries := hn.entries
  rw [addEntry_eq, hwordAddr] at hentries
  -- `active_patch` takes the address from the descriptor, where it is aligned by now
  have harm := hn.armPatch handler (by rw [hdesc]) m.fpb
  rw [hwordAddr] at harm
  have hunit := h.unit.addHwBkpt hword env.flash handler
  obtain ⟨-, hcomp⟩ := addHwBkpt_monitor env.flash handler h.unit.monitor hword.lt
  rw [← harm] at hunit hcomp
  have hnewAddr : (newEntry env (addr &&& ~~~0x3#32) (s.patchCount + 1)).instAddr =
      addr &&& ~~~0x3#32 := calcBpktAddr_of_aligned hword.aligned hword.lt
  have hall : ∀ e ∈ s'.entriesOf l', e ∈ keptEntries (m.sys.entriesOf l) (addr &&& ~~~0x3#32) ∨
      e = newEntry env (addr &&& ~~~0x3#32) (s.patchCount + 1) := by
    intro e he
    rw [hentries] at he
    rcases List.mem_append.mp he with he | he
    · exact .inl he
    · exact .inr (List.mem_singleton.mp he)
  have hkept : ∀ e ∈ keptEntries (m.sys.entriesOf l) (addr &&& ~~~0x3#32),
      e ∈ m.sys.entriesOf l := fun e he => (keptEntries_initial _ _).subset he
  refine ⟨⟨s', armPatch env handler m.fpb (s'.desc d)⟩, l', ?_,
    ⟨hn.lists, hn.fixed, hn.filter, ?_, ?_, hunit⟩, ⟨?_, ?_, hcomp⟩⟩
  · simp only [PatchedDevice.install, PatchedDevice.notifyNewPatch]
    rw [hnotify]
    rfl
  · intro e he
    rcases hall e he with he | rfl
    · rw [hn.old e.patch (h.lists.patch_le (hkept e he))]
      exact h.active e (hkept e he)
    · exact congrArg EbpfPatch.isActive hn.new
  · intro e he
    rcases hall e he with he | rfl
    · exact h.words e (hkept e he)
    · rw [hnewAddr]
      exact hword
  · intro e he
    rw [h.lists.entries] at he
    rw [hn.lists.entries, hentries]
    exact List.mem_append_left _ he
  · intro e he
    rw [hn.lists.entries] at he
    rw [h.lists.entries]
    rcases hall e he with he | rfl
    · exact .inl he
    · exact .inr hnewAddr

/-- An installation that spares the listed patches leaves them armed. -/
theorem Tables.armed_of_spares {l' : List ℕ} {addr : BitVec 32} (h : Tables m l) (h' : Tables m' l')
    (hinst : InstalledAt m (addr &&& ~~~0x3#32) m') (harmed : Armed m)
    (hspares : SparesListed m addr) : Armed m' := by
  rw [h.armed_iff, ← h.lists.entries] at harmed
  rw [h'.armed_iff, ← h'.lists.entries]
  have hkept : ∀ e ∈ keptEntries m.sys.entries (addr &&& ~~~0x3#32), m.fpb.Holds e.instAddr :=
    fun e he => harmed e ((keptEntries_initial _ _).subset he)
  intro e he
  rcases hinst.comp with ⟨hold, hcomp⟩ | ⟨hfree, hcomp⟩
  · have hsame : m.fpb.Holds e.instAddr := by
      rcases hinst.listed e he with he | he
      · exact hkept e he
      · rwa [he]
    rwa [Fpb.Holds, hcomp]
  · rcases hinst.listed e he with he | he
    · obtain ⟨i, hi, hcompi⟩ := hkept e he
      have hne : i ≠ m.fpb.nextComp := by
        rintro rfl
        exact (hspares.resolve_left hfree) e he hcompi
      exact ⟨i, hi, by rw [hcomp, Function.update_of_ne hne, hcompi]⟩
    · exact ⟨m.fpb.nextComp, m.fpb.nextComp_lt, by rw [hcomp, Function.update_self, he]⟩

/-- One that does not takes the breakpoint of a patch that is still found. -/
theorem Tables.spares_of_armed {l' : List ℕ} {addr : BitVec 32} (h : Tables m l) (h' : Tables m' l')
    (haddr : CodeWord (addr &&& ~~~0x3#32)) (hinst : InstalledAt m (addr &&& ~~~0x3#32) m')
    (harmed : Armed m') : SparesListed m addr := by
  rw [h'.armed_iff, ← h'.lists.entries] at harmed
  rcases hinst.comp with ⟨hold, -⟩ | ⟨hfree, hcomp⟩
  · exact .inl hold
  · right
    intro e he hnext
    have hword : CodeWord e.instAddr := by
      apply h.words
      rw [← h.lists.entries]
      exact (keptEntries_initial _ _).subset he
    obtain ⟨i, hi, hcompi⟩ := harmed e (hinst.kept e he)
    rw [hcomp] at hcompi
    by_cases hinext : i = m.fpb.nextComp
    · rw [hinext, Function.update_self] at hcompi
      exact keptEntries_ne e he (fpComp_injective haddr hword hcompi).symm
    · rw [Function.update_of_ne hinext] at hcompi
      -- no other comparator holds the address
      refine hinext (h.unit.distinct i hi _ m.fpb.nextComp_lt (hcompi.trans hnext.symm) ?_)
      rw [hcompi]
      exact fpComp_ne_zero _

structure FreshDevice (env : Env F) (m : PatchedDevice F) : Prop where
  sys : ∃ s, s.ctxInit = false ∧ initPatchSys env s = some m.sys
  clear : ∀ i < maxBp, m.fpb.comp i = 0
  monitor : m.fpb.Monitor

theorem FreshDevice.tables (h : FreshDevice env m) : Tables m [] := by
  obtain ⟨s, hinit, hs⟩ := h.sys
  have hsys := initPatchSys_initialised hinit hs
  refine ⟨.nil hsys.next, by simp [hsys.fixedPatches], hsys.dbitsFilterBpkt,
    by simp [PatchSys.entriesOf], by simp [PatchSys.entriesOf], h.monitor,
    fun i hi => .inl (h.clear i hi), ?_⟩
  intro i hi j hj _ hne
  exact absurd (h.clear i hi) hne

theorem installAll_concat (env : Env F) (handler : ℕ → BitVec 32) (m : PatchedDevice F)
    (ys : List (ℕ × BitVec 32)) (x : ℕ × BitVec 32) :
    m.installAll env handler (ys ++ [x]) =
      (m.installAll env handler ys).bind fun m' => m'.install env handler x := by
  simp [PatchedDevice.installAll, List.foldlM_append]

theorem Tables.installAll (env : Env F) (handler : ℕ → BitVec 32) (h : Tables m l)
    (ys : List (ℕ × BitVec 32)) (hys : ∀ x ∈ ys, x.2.toNat < 0x20000000) :
    ∃ m' l', m.installAll env handler ys = some m' ∧ Tables m' l' := by
  induction ys using List.reverseRecOn with
  | nil => exact ⟨m, l, rfl, h⟩
  | append_singleton ys x ih =>
      obtain ⟨m₁, l₁, hrun, h₁⟩ := ih fun y hy => hys y (by simp [hy])
      obtain ⟨m₂, l₂, hstep, h₂, -⟩ := h₁.install env handler x (hys x (by simp))
      refine ⟨m₂, l₂, ?_, h₂⟩
      rw [installAll_concat, hrun, Option.bind_some, hstep]

/-- All patches that can be looked up have their breakpoints after each
installation of a run, exactly when each installation spares those of the
patches that stay listed. -/
theorem armed_throughout_iff (env : Env F) (handler : ℕ → BitVec 32) (m : PatchedDevice F)
    (hm : FreshDevice env m) (xs : List (ℕ × BitVec 32))
    (hxs : ∀ x ∈ xs, x.2.toNat < 0x20000000) :
    (∀ ys, ys <+: xs → ∃ m', m.installAll env handler ys = some m' ∧ Armed m') ↔
      ∀ ys x, ys ++ [x] <+: xs →
        ∃ m', m.installAll env handler ys = some m' ∧ SparesListed m' x.2 := by
  have hstep : ∀ ys x, ys ++ [x] <+: xs → ∃ m₁ l₁ m₂ l₂, m.installAll env handler ys = some m₁ ∧
      m.installAll env handler (ys ++ [x]) = some m₂ ∧ Tables m₁ l₁ ∧ Tables m₂ l₂ ∧
      InstalledAt m₁ (x.2 &&& ~~~0x3#32) m₂ := by
    intro ys x hpre
    have hlt : ∀ y ∈ ys ++ [x], y.2.toNat < 0x20000000 := fun y hy => hxs y (hpre.subset hy)
    obtain ⟨m₁, l₁, hrun, h₁⟩ := hm.tables.installAll env handler ys
      fun y hy => hlt y (by simp [hy])
    obtain ⟨m₂, l₂, hinst, h₂, hat⟩ := h₁.install env handler x (hlt x (by simp))
    refine ⟨m₁, l₁, m₂, l₂, hrun, ?_, h₁, h₂, hat⟩
    rw [installAll_concat, hrun, Option.bind_some, hinst]
  constructor
  · intro harmed ys x hpre
    obtain ⟨m₁, l₁, m₂, l₂, hrun, hrun', h₁, h₂, hat⟩ := hstep ys x hpre
    obtain ⟨m₂', hrun'', harmed'⟩ := harmed (ys ++ [x]) hpre
    obtain rfl : m₂ = m₂' := Option.some.inj (hrun'.symm.trans hrun'')
    have hword : CodeWord (x.2 &&& ~~~0x3#32) := .of_and (hxs x (hpre.subset (by simp)))
    exact ⟨m₁, hrun, h₁.spares_of_armed h₂ hword hat harmed'⟩
  · intro hspares ys hpre
    -- on the length of the run, as each step needs the patches armed before it
    induction ys using List.reverseRecOn with
    | nil =>
        refine ⟨m, rfl, hm.tables.armed_iff.mpr ?_⟩
        simp [PatchSys.entriesOf]
    | append_singleton ys x ih =>
        obtain ⟨m₁, l₁, m₂, l₂, hrun, hrun', h₁, h₂, hat⟩ := hstep ys x hpre
        obtain ⟨m₁', hm₁', harmed⟩ := ih ((List.prefix_append ys [x]).trans hpre)
        obtain rfl : m₁ = m₁' := Option.some.inj (hrun.symm.trans hm₁')
        obtain ⟨m₁', hm₁', hspare⟩ := hspares ys x hpre
        obtain rfl : m₁ = m₁' := Option.some.inj (hrun.symm.trans hm₁')
        exact ⟨m₂, hrun', h₁.armed_of_spares h₂ hat harmed hspare⟩

end

theorem clearDevice_fresh : FreshDevice listEnv clearDevice where
  sys := ⟨bootDevice.sys, rfl, rfl⟩
  clear := fun _ _ => rfl
  monitor := ⟨rfl, by simp [Fpb.Counted, clearDevice]⟩

theorem two_patches_armed :
    FreshDevice listEnv clearDevice ∧
      ∀ ys, ys <+: [(1, 0x08000100#32), (2, 0x08000200#32)] →
        ∃ m', clearDevice.installAll listEnv (fun _ => 0) ys = some m' ∧ Armed m' := by
  refine ⟨clearDevice_fresh, ?_⟩
  refine (armed_throughout_iff listEnv (fun _ => 0) clearDevice clearDevice_fresh _
    (by decide)).mpr ?_
  intro ys x hpre
  rcases ys with _ | ⟨y, _ | ⟨z, ys⟩⟩
  · obtain rfl : x = (1, 0x08000100#32) := by simpa using hpre
    exact ⟨_, rfl, by decide⟩
  · obtain ⟨rfl, rfl⟩ : y = (1, 0x08000100#32) ∧ x = (2, 0x08000200#32) := by simpa using hpre
    exact ⟨_, (Option.some_get (by decide)).symm, by decide⟩
  · simp at hpre

def sevenPatches : List (ℕ × BitVec 32) :=
  [(1, 0x08000100), (2, 0x08000200), (3, 0x08000300), (4, 0x08000400), (5, 0x08000500),
    (6, 0x08000600), (7, 0x08000700)]

/-- The list takes a seventh patch, which takes the comparator of the first. -/
theorem seventh_patch_disarms_first :
    FreshDevice listEnv clearDevice ∧ (∀ x ∈ sevenPatches, x.2.toNat < 0x20000000) ∧
      ∃ m', clearDevice.installAll listEnv (fun _ => 0) sevenPatches = some m' ∧
        getDynamicPatchByBpkt m'.sys 0x08000100 = some 1 ∧ ¬m'.fpb.BreaksAt 0x08000100 := by
  refine ⟨clearDevice_fresh, by decide, ?_⟩
  refine ⟨(clearDevice.installAll listEnv (fun _ => 0) sevenPatches).get (by decide), ?_, ?_, ?_⟩
  · exact (Option.some_get _).symm
  · decide
  · decide

end RapidPatch.Hotpatch
