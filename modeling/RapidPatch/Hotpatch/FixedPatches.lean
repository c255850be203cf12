import Mathlib.Data.List.AList
import Mathlib.Data.List.Induction
import RapidPatch.Hotpatch.PatchList

/-!
Fixed patch points, and the loader of `fixed_patch_load.c`.

A fixed patch is stored in the table under the address it is called from, and
its descriptor holds that address again: the table is asked with one, the bit
filter is made from the other. A notified patch has a descriptor of its own.
The loader has a single patch and a single descriptor and moves them from
location to location; the table still has them under the location they left.

So a location is *stale* when the loader's patch was the last one installed
there and has moved on. All other locations are looked up as they should be,
and a stale one shows the moved patch exactly when the bits of the locations
in use happen to cover it (`exactLookup_iff`).
-/

namespace RapidPatch.Hotpatch

open RapidPatch.Support

variable {F : Type}

/-! ### The loader -/

/-- The context, the number of descriptors allocated, and the loader's static
variables. -/
structure FixedLoader (F : Type) where
  sys : PatchSys F
  descCount : ℕ
  /-- `is_init`. -/
  isInit : Bool
  /-- `_desc`. -/
  desc : ℕ
  /-- `_patch`. -/
  patch : ℕ

/-- A list of local patches: its length and the `loc` of the record at an
index, be it of the list or not. -/
structure LocalPatches where
  count : ℤ
  loc : ℤ → BitVec 32

def getFixedPatchByLr (arraymapGet : F → BitVec 32 → Option ℕ) (s : PatchSys F) (lr : BitVec 32) :
    Option ℕ :=
  if s.fbitsFilter &&& lr ≠ lr then none
  else do
    let fixed ← s.fixedPatches
    let p ← arraymapGet fixed lr
    if (s.patch p).isActive then some p else none

section

variable (env : Env F) (patchList : LocalPatches)

/-- The part of `load_local_fixed_patch` that is run once: `ebpf_calloc` of the
descriptor and of the patch. -/
def FixedLoader.setup (s : FixedLoader F) : FixedLoader F :=
  if s.isInit then s
  else
    let d := s.descCount + 1
    let p := s.sys.patchCount + 1
    { sys := { s.sys with
        desc := Function.update s.sys.desc d { type := 0, addr := 0 }
        patch := Function.update s.sys.patch p { desc := 0, isActive := false }
        patchCount := p }
      descCount := d
      isInit := true
      desc := d
      patch := p }

/-- `load_local_fixed_patch`, without the virtual machine. -/
def loadLocalFixedPatch (s : FixedLoader F) (pid : ℤ) : Option (FixedLoader F) :=
  if pid > patchList.count then some s
  else do
    let s := s.setup
    let sys ← initPatchSys env s.sys
    let sys := { sys with
      desc := Function.update sys.desc s.desc { type := fixedPatchPoint, addr := patchList.loc pid }
      patch := Function.update sys.patch s.patch { sys.patch s.patch with desc := s.desc } }
    let sys ← loadLocalPatchToCtx env sys s.patch
    return { s with sys := sys }

/-- `notify_new_patch` of a new descriptor for a fixed patch. -/
def notifyFixedPatch (s : FixedLoader F) (loc : BitVec 32) : Option (FixedLoader F) := do
  let d := s.descCount + 1
  let desc : PatchDesc := { type := fixedPatchPoint, addr := loc }
  let sys ← notifyNewPatch env { s.sys with desc := Function.update s.sys.desc d desc } d
  return { s with sys := sys, descCount := d }

inductive FixedEvent
  | notify (loc : BitVec 32)
  | loadLocal (pid : ℤ)

def FixedLoader.step (s : FixedLoader F) : FixedEvent → Option (FixedLoader F)
  | .notify loc => notifyFixedPatch env s loc
  | .loadLocal pid => loadLocalFixedPatch env patchList s pid

def FixedLoader.run (s : FixedLoader F) (events : List FixedEvent) : Option (FixedLoader F) :=
  events.foldlM (FixedLoader.step env patchList) s

end

/-! ### What was installed where -/

/-- Whose patch an installation installs. -/
inductive Source
  | notified
  | loaded
  deriving DecidableEq

structure Install where
  loc : BitVec 32
  source : Source

/-- The installations so far, the last one first. -/
def record (patchList : LocalPatches) (h : List Install) : FixedEvent → List Install
  | .notify loc => { loc := loc, source := .notified } :: h
  | .loadLocal pid =>
      if pid > patchList.count then h
      else { loc := patchList.loc pid, source := .loaded } :: h

def history (patchList : LocalPatches) (events : List FixedEvent) : List Install :=
  events.foldl (record patchList) []

/-- Whose patch was the last one at a location. -/
def latestAt (h : List Install) (k : BitVec 32) : Option Source :=
  (h.find? (·.loc = k)).map (·.source)

/-- Where the loader's patch is. -/
def lastLoaded (h : List Install) : Option (BitVec 32) :=
  (h.find? (·.source = .loaded)).map (·.loc)

/-- The last patch at the location was the loader's, which has moved on. -/
def Stale (h : List Install) (k : BitVec 32) : Prop :=
  latestAt h k = some .loaded ∧ lastLoaded h ≠ some k

instance Stale.decidable (h : List Install) (k : BitVec 32) : Decidable (Stale h k) :=
  inferInstanceAs (Decidable (_ ∧ _))

/-- The locations whose last patch is still theirs. -/
def standing (h : List Install) : List (BitVec 32) := (h.map (·.loc)).filter fun k => ¬Stale h k

/-- Lookups find active patches whose descriptors have the location looked up,
and find one for each location that has not lost its own. -/
def ExactLookup (arraymapGet : F → BitVec 32 → Option ℕ) (s : PatchSys F) (h : List Install) :
    Prop :=
  (∀ lr p, getFixedPatchByLr arraymapGet s lr = some p →
    (s.patch p).isActive = true ∧ (s.desc (s.patch p).desc).addr = lr) ∧
  ∀ k ∈ standing h, ∃ p, getFixedPatchByLr arraymapGet s k = some p

section

variable {h : List Install} {k : BitVec 32}

theorem latestAt_cons (x : Install) (h : List Install) (k : BitVec 32) :
    latestAt (x :: h) k = if x.loc = k then some x.source else latestAt h k := by
  simp only [latestAt, List.find?_cons]
  by_cases hk : x.loc = k <;> simp [hk]

theorem lastLoaded_cons (x : Install) (h : List Install) :
    lastLoaded (x :: h) = if x.source = .loaded then some x.loc else lastLoaded h := by
  simp only [lastLoaded, List.find?_cons]
  by_cases hx : x.source = .loaded <;> simp [hx]

theorem mem_map_loc_iff : k ∈ h.map (·.loc) ↔ latestAt h k ≠ none := by
  induction h with
  | nil => simp [latestAt]
  | cons x h ih =>
      rw [latestAt_cons, List.map_cons, List.mem_cons, ih]
      by_cases hk : x.loc = k
      · simp [hk]
      · simp [hk, Ne.symm hk]

theorem latestAt_ne_none (hk : lastLoaded h = some k) : latestAt h k ≠ none := by
  obtain ⟨x, hx, hloc⟩ := Option.map_eq_some_iff.mp hk
  rw [← mem_map_loc_iff, ← hloc]
  exact List.mem_map_of_mem (List.mem_of_find?_eq_some hx)

theorem lastLoaded_ne_none (hk : latestAt h k = some .loaded) : lastLoaded h ≠ none := by
  obtain ⟨x, hx, hsource⟩ := Option.map_eq_some_iff.mp hk
  intro hnone
  have hall := List.find?_eq_none.mp (Option.map_eq_none_iff.mp hnone)
  simpa [hsource] using hall x (List.mem_of_find?_eq_some hx)

/-- A location stands if its patch was notified, or is the loader's. -/
theorem mem_standing_iff :
    k ∈ standing h ↔ latestAt h k = some .notified ∨ lastLoaded h = some k := by
  rw [standing, List.mem_filter, mem_map_loc_iff, decide_eq_true_eq, Stale]
  constructor
  · rintro ⟨hsome, hstale⟩
    cases hlatest : latestAt h k with
    | none => exact absurd hlatest hsome
    | some source =>
        cases source with
        | notified => exact .inl rfl
        | loaded => exact .inr (by_contra fun hne => hstale ⟨hlatest, hne⟩)
  · rintro (hnotified | hloaded)
    · simp [hnotified]
    · exact ⟨latestAt_ne_none hloaded, fun hstale => hstale.2 hloaded⟩

end

/-! ### One installation -/

/-- A table that is an exact finite map. -/
structure ExactMap (env : Env F) (arraymapGet : F → BitVec 32 → Option ℕ) : Prop where
  get_new : ∀ k, arraymapGet env.arraymapNew k = none
  get_set : ∀ m k v k', arraymapGet (env.arraymapSet m k v) k' =
    if k' = k then some v else arraymapGet m k'
  mem_vals : ∀ m v, v ∈ env.arraymapVals m ↔ ∃ k, arraymapGet m k = some v

def PatchSys.addrOf (s : PatchSys F) (p : ℕ) : BitVec 32 := (s.desc (s.patch p).desc).addr

/-- What storing a patch in the table and activating it leaves behind. -/
structure FixedInstalled (env : Env F) (s : PatchSys F) (m : F) (p : ℕ) (s' : PatchSys F) :
    Prop where
  ctxInit : s'.ctxInit = s.ctxInit
  fixedPatches : s'.fixedPatches = some (env.arraymapSet m (s.addrOf p) p)
  patch : s'.patch = Function.update s.patch p { s.patch p with isActive := true }
  patchCount : s'.patchCount = s.patchCount
  desc : s'.desc = s.desc
  filter : s'.fbitsFilter = orAll (((env.arraymapVals (env.arraymapSet m (s.addrOf p) p)).filter
    fun q => (s.patch q).isActive).map s.addrOf ++ [s.addrOf p])

variable {env : Env F} {arraymapGet : F → BitVec 32 → Option ℕ}

theorem addFixedPatchToCtx_installed (env : Env F) {s : PatchSys F} {m : F} {p : ℕ}
    (hm : s.fixedPatches = some m) (htype : (s.desc (s.patch p).desc).type = fixedPatchPoint) :
    ∃ s', (addFixedPatchToCtx env s p).bind (fun s => activePatch env s p) = some s' ∧
      FixedInstalled env s m p s' := by
  have hadd : addFixedPatchToCtx env s p =
      some { s with fixedPatches := some (env.arraymapSet m (s.addrOf p) p) } := by
    simp only [addFixedPatchToCtx, hm]
    rfl
  have hfixed : { s with fixedPatches := some (env.arraymapSet m (s.addrOf p) p) }.fixedPatches ≠
      none := by simp
  obtain ⟨s', hs'⟩ := activePatch_isSome env hfixed p
  refine ⟨s', by rw [hadd, Option.bind_some, hs'], ?_⟩
  simp only [activePatch, updateBitsFilter, if_pos htype, Option.pure_def, Option.bind_eq_bind,
    Option.bind_some, Option.some.injEq] at hs'
  subst hs'
  refine ⟨rfl, rfl, rfl, rfl, rfl, ?_⟩
  rw [orAll_append_singleton, orAll, List.foldl_map, List.foldl_filter]
  rfl

theorem FixedInstalled.mem_filter {s s' : PatchSys F} {m : F} {p : ℕ}
    (h : FixedInstalled env s m p s') (hmap : ExactMap env arraymapGet) :
    ∃ xs, s'.fbitsFilter = orAll xs ∧ ∀ x, x ∈ xs ↔ x = s.addrOf p ∨
      ∃ k ≠ s.addrOf p, ∃ q, arraymapGet m k = some q ∧ (s.patch q).isActive = true ∧
        s.addrOf q = x := by
  refine ⟨_, h.filter, ?_⟩
  intro x
  rw [List.mem_append, List.mem_singleton, List.mem_map]
  constructor
  · rintro (⟨q, hq, rfl⟩ | rfl)
    · obtain ⟨hq, hactive⟩ := List.mem_filter.mp hq
      obtain ⟨k, hk⟩ := (hmap.mem_vals _ q).mp hq
      rw [hmap.get_set] at hk
      split at hk
      · cases hk
        exact .inl rfl
      · exact .inr ⟨k, ‹_›, q, hk, hactive, rfl⟩
    · exact .inl rfl
  · rintro (rfl | ⟨k, hk, q, hq, hactive, rfl⟩)
    · exact .inr rfl
    · refine .inl ⟨q, List.mem_filter.mpr ⟨?_, hactive⟩, rfl⟩
      rw [hmap.mem_vals]
      exact ⟨k, by rw [hmap.get_set, if_neg hk, hq]⟩

/-- The table's entry for a location, by whose patch was the last one there:
the descriptors of active patches hold the locations that stand. -/
structure StoredAs (arraymapGet : F → BitVec 32 → Option ℕ) (s : PatchSys F) (m : F)
    (h h' : List Install) (k : BitVec 32) : Prop where
  empty : latestAt h k = none → arraymapGet m k = none
  notified : latestAt h k = some .notified →
    ∃ q, arraymapGet m k = some q ∧ (s.patch q).isActive = true ∧ s.addrOf q = k
  loaded : latestAt h k = some .loaded →
    ∃ q, arraymapGet m k = some q ∧ (s.patch q).isActive = true ∧
      lastLoaded h' = some (s.addrOf q)

/-- After an installation the filter is made from the locations that stand. -/
theorem FixedInstalled.filter_eq {s s' : PatchSys F} {m : F} {p : ℕ} {x : Install}
    {h : List Install} (hinst : FixedInstalled env s m p s') (hmap : ExactMap env arraymapGet)
    (hloc : s.addrOf p = x.loc)
    (hstored : ∀ k ≠ x.loc, StoredAs arraymapGet s m h (x :: h) k) :
    s'.fbitsFilter = orAll (standing (x :: h)) := by
  obtain ⟨xs, hfilter, hxs⟩ := hinst.mem_filter hmap
  rw [hfilter]
  apply orAll_congr
  intro y
  rw [hxs, mem_standing_iff, hloc]
  constructor
  · rintro (rfl | ⟨k, hk, q, hq, hactive, rfl⟩)
    · rw [latestAt_cons, if_pos rfl, lastLoaded_cons]
      cases x.source with
      | notified => exact .inl rfl
      | loaded => exact .inr rfl
    · cases hlatest : latestAt h k with
      | none =>
          rw [(hstored k hk).empty hlatest] at hq
          cases hq
      | some source =>
          cases source with
          | notified =>
              obtain ⟨q', hq', -, haddr⟩ := (hstored k hk).notified hlatest
              obtain rfl : q = q' := Option.some.inj (hq.symm.trans hq')
              left
              rw [haddr, latestAt_cons, if_neg hk.symm, hlatest]
          | loaded =>
              -- wherever it is stored, the loader's patch has its latest location
              obtain ⟨q', hq', -, haddr⟩ := (hstored k hk).loaded hlatest
              obtain rfl : q = q' := Option.some.inj (hq.symm.trans hq')
              exact .inr haddr
  · intro hstanding
    by_cases hy : y = x.loc
    · exact .inl hy
    · right
      rw [latestAt_cons, if_neg (Ne.symm hy)] at hstanding
      cases hlatest : latestAt h y with
      | none =>
          rcases hstanding with hnotified | hlast
          · rw [hlatest] at hnotified
            cases hnotified
          · rw [lastLoaded_cons] at hlast
            split at hlast
            · exact absurd (Option.some.inj hlast).symm hy
            · exact absurd hlatest (latestAt_ne_none hlast)
      | some source =>
          cases source with
          | notified =>
              obtain ⟨q, hq, hactive, haddr⟩ := (hstored y hy).notified hlatest
              exact ⟨y, hy, q, hq, hactive, haddr⟩
          | loaded =>
              obtain ⟨q, hq, hactive, haddr⟩ := (hstored y hy).loaded hlatest
              have hlast := hstanding.resolve_left (by simp [hlatest])
              exact ⟨y, hy, q, hq, hactive, Option.some.inj (haddr.symm.trans hlast)⟩

/-! ### The table follows the installations -/

structure Notified (s : FixedLoader F) (p : ℕ) (k : BitVec 32) : Prop where
  patch_le : p ≤ s.sys.patchCount
  desc_le : (s.sys.patch p).desc ≤ s.descCount
  active : (s.sys.patch p).isActive = true
  addr : s.sys.addrOf p = k
  patch_ne : s.isInit = true → p ≠ s.patch
  desc_ne : s.isInit = true → (s.sys.patch p).desc ≠ s.desc

/-- A table that holds the last patch of every location. -/
structure HoldsLast (arraymapGet : F → BitVec 32 → Option ℕ) (s : FixedLoader F) (m : F)
    (h : List Install) : Prop where
  empty : ∀ k, latestAt h k = none → arraymapGet m k = none
  notified : ∀ k, latestAt h k = some .notified →
    ∃ q, arraymapGet m k = some q ∧ Notified s q k
  loaded : ∀ k, latestAt h k = some .loaded → arraymapGet m k = some s.patch

/-- The invariant of a run. -/
structure Tracks (arraymapGet : F → BitVec 32 → Option ℕ) (s : FixedLoader F) (h : List Install) :
    Prop where
  ctxInit : s.sys.ctxInit = true
  table : ∃ m, s.sys.fixedPatches = some m ∧ HoldsLast arraymapGet s m h
  static : s.isInit = true → s.patch ≤ s.sys.patchCount ∧ s.desc ≤ s.descCount ∧
    s.sys.patch s.patch = { desc := s.desc, isActive := true } ∧
    lastLoaded h = some (s.sys.desc s.desc).addr
  notInit : s.isInit = false → lastLoaded h = none
  filter : s.sys.fbitsFilter = orAll (standing h)

section

variable {s t : FixedLoader F} {m : F} {h hist : List Install} {x : Install} {p q : ℕ}
  {k : BitVec 32}

/-- Writes to other patches and other descriptors do not matter. -/
theorem Notified.frame (hq : Notified s q k) (hpatch : t.sys.patch q = s.sys.patch q)
    (hdesc : t.sys.desc (s.sys.patch q).desc = s.sys.desc (s.sys.patch q).desc)
    (hpatches : s.sys.patchCount ≤ t.sys.patchCount) (hdescs : s.descCount ≤ t.descCount)
    (hpatchNe : t.isInit = true → q ≠ t.patch)
    (hdescNe : t.isInit = true → (s.sys.patch q).desc ≠ t.desc) : Notified t q k := by
  refine ⟨hq.patch_le.trans hpatches, ?_, ?_, ?_, hpatchNe, ?_⟩
  · rw [hpatch]
    exact hq.desc_le.trans hdescs
  · rw [hpatch]
    exact hq.active
  · rw [PatchSys.addrOf, hpatch, hdesc]
    exact hq.addr
  · rw [hpatch]
    exact hdescNe

theorem HoldsLast.frame (hm : HoldsLast arraymapGet s m h)
    (hnotified : ∀ q k, Notified s q k → Notified t q k)
    (hpatch : lastLoaded h ≠ none → t.patch = s.patch) : HoldsLast arraymapGet t m h := by
  refine ⟨hm.empty, ?_, ?_⟩
  · intro k hk
    obtain ⟨q, hq, hnot⟩ := hm.notified k hk
    exact ⟨q, hq, hnotified q k hnot⟩
  · intro k hk
    rw [hpatch (lastLoaded_ne_none hk)]
    exact hm.loaded k hk

/-- The state in which a patch is stored in the table, the installation being
the next one of the history. -/
structure PreparedFor (arraymapGet : F → BitVec 32 → Option ℕ) (t : FixedLoader F) (m : F)
    (h : List Install) (x : Install) (p : ℕ) : Prop where
  ctxInit : t.sys.ctxInit = true
  fixedPatches : t.sys.fixedPatches = some m
  holds : HoldsLast arraymapGet t m h
  type : (t.sys.desc (t.sys.patch p).desc).type = fixedPatchPoint
  addr : t.sys.addrOf p = x.loc
  fresh : ∀ q k, Notified t q k → q ≠ p
  notified : x.source = .notified → p ≤ t.sys.patchCount ∧ (t.sys.patch p).desc ≤ t.descCount ∧
    (t.isInit = true → p ≠ t.patch ∧ (t.sys.patch p).desc ≠ t.desc)
  loaded : x.source = .loaded → p = t.patch
  static : t.isInit = true → t.patch ≤ t.sys.patchCount ∧ t.desc ≤ t.descCount ∧
    (t.sys.patch t.patch).desc = t.desc ∧
    (lastLoaded h ≠ none → (t.sys.patch t.patch).isActive = true) ∧
    lastLoaded (x :: h) = some (t.sys.desc t.desc).addr
  notInit : t.isInit = false → lastLoaded (x :: h) = none

theorem PreparedFor.isInit (hp : PreparedFor arraymapGet t m h x p) {k : BitVec 32}
    (hk : latestAt h k = some .loaded) : t.isInit = true := by
  cases hinit : t.isInit with
  | true => rfl
  | false =>
      have hnone := hp.notInit hinit
      rw [lastLoaded_cons] at hnone
      split at hnone
      · cases hnone
      · exact absurd hnone (lastLoaded_ne_none hk)

theorem PreparedFor.storedAs (hp : PreparedFor arraymapGet t m h x p) (k : BitVec 32) :
    StoredAs arraymapGet t.sys m h (x :: h) k := by
  refine ⟨hp.holds.empty k, ?_, ?_⟩
  · intro hk
    obtain ⟨q, hq, hnot⟩ := hp.holds.notified k hk
    exact ⟨q, hq, hnot.active, hnot.addr⟩
  · intro hk
    obtain ⟨-, -, hdesc, hactive, hlast⟩ := hp.static (hp.isInit hk)
    refine ⟨t.patch, hp.holds.loaded k hk, hactive (lastLoaded_ne_none hk), ?_⟩
    rw [hlast, PatchSys.addrOf, hdesc]

theorem PreparedFor.tracks (hp : PreparedFor arraymapGet t m h x p)
    (hmap : ExactMap env arraymapGet) {s' : PatchSys F} (hinst : FixedInstalled env t.sys m p s') :
    Tracks arraymapGet { t with sys := s' } (x :: h) := by
  have hself : s'.patch p = { desc := (t.sys.patch p).desc, isActive := true } := by
    rw [hinst.patch, Function.update_self]
  have hother : ∀ q ≠ p, s'.patch q = t.sys.patch q := fun q hq => by
    rw [hinst.patch, Function.update_of_ne hq]
  refine ⟨hinst.ctxInit.trans hp.ctxInit, ⟨_, hinst.fixedPatches, ?_⟩, ?_, hp.notInit,
    hinst.filter_eq hmap hp.addr fun k _ => hp.storedAs k⟩
  · -- the location of the installation has the new patch, the others what they had
    rw [hp.addr]
    refine ⟨?_, ?_, ?_⟩ <;> intro k hk <;> rw [latestAt_cons] at hk <;> rw [hmap.get_set] <;>
      split at hk
    · cases hk
    · rw [if_neg (Ne.symm ‹_›)]
      exact hp.holds.empty k hk
    · rename_i hloc
      obtain ⟨hpatch, hdesc, hne⟩ := hp.notified (Option.some.inj hk)
      refine ⟨p, if_pos hloc.symm, hpatch.trans hinst.patchCount.ge, ?_, ?_, ?_,
        fun hinit => (hne hinit).1, ?_⟩
      · rw [hself]
        exact hdesc
      · rw [hself]
      · rw [PatchSys.addrOf, hself, hinst.desc, ← hloc]
        exact hp.addr
      · rw [hself]
        exact fun hinit => (hne hinit).2
    · rename_i hloc
      obtain ⟨q, hq, hnot⟩ := hp.holds.notified k hk
      refine ⟨q, (if_neg (Ne.symm hloc)).trans hq, ?_⟩
      exact hnot.frame (hother q (hp.fresh q k hnot)) (by rw [hinst.desc]) hinst.patchCount.ge
        le_rfl hnot.patch_ne hnot.desc_ne
    · rw [if_pos (‹_ = k›).symm, hp.loaded (Option.some.inj hk)]
    · rw [if_neg (Ne.symm ‹_›)]
      exact hp.holds.loaded k hk
  · intro hinit
    obtain ⟨hpatch, hdesc, hdescOf, hactive, hlast⟩ := hp.static hinit
    refine ⟨hpatch.trans hinst.patchCount.ge, hdesc, ?_, by rw [hinst.desc]; exact hlast⟩
    by_cases heq : t.patch = p
    · rw [heq, hself, ← heq, hdescOf]
    · have hnotified : x.source ≠ .loaded := fun hloaded => heq (hp.loaded hloaded).symm
      rw [lastLoaded_cons, if_neg hnotified] at hlast
      rw [hother _ heq, ← hdescOf, ← hactive (by simp [hlast])]

theorem notifyNewPatch_fixed (env : Env F) {s : PatchSys F} {d : ℕ}
    (htype : (s.desc d).type = fixedPatchPoint) :
    notifyNewPatch env s d =
      (addFixedPatchToCtx env (ebpfPatchSetup s d).1 (s.patchCount + 1)).bind
        fun t => activePatch env t (s.patchCount + 1) := by
  have hadd : addEbpfPatch env s d =
      (addFixedPatchToCtx env (ebpfPatchSetup s d).1 (s.patchCount + 1)).map
        fun t => (t, s.patchCount + 1) := by
    unfold addEbpfPatch
    exact if_pos htype
  rw [notifyNewPatch, hadd]
  cases addFixedPatchToCtx env (ebpfPatchSetup s d).1 (s.patchCount + 1) <;> rfl

theorem loadLocalPatchToCtx_fixed (env : Env F) {s : PatchSys F} {p : ℕ}
    (htype : (s.desc (s.patch p).desc).type = fixedPatchPoint) :
    loadLocalPatchToCtx env s p =
      (addFixedPatchToCtx env s p).bind fun t => activePatch env t p := by
  unfold loadLocalPatchToCtx
  exact if_pos htype

theorem Tracks.notify (h : Tracks arraymapGet s hist) (hmap : ExactMap env arraymapGet)
    (loc : BitVec 32) :
    ∃ s', notifyFixedPatch env s loc = some s' ∧
      Tracks arraymapGet s' ({ loc := loc, source := .notified } :: hist) := by
  obtain ⟨m, hm, hlast⟩ := h.table
  let d := s.descCount + 1
  let p := s.sys.patchCount + 1
  let sys : PatchSys F :=
    { s.sys with desc := Function.update s.sys.desc d { type := fixedPatchPoint, addr := loc } }
  let t : FixedLoader F := { s with sys := (ebpfPatchSetup sys d).1, descCount := d }
  have hp : t.sys.patch p = { desc := d, isActive := false } := Function.update_self ..
  have hd : t.sys.desc d = { type := fixedPatchPoint, addr := loc } := Function.update_self ..
  have hpatch : ∀ q ≤ s.sys.patchCount, t.sys.patch q = s.sys.patch q :=
    fun q hq => Function.update_of_ne (Nat.lt_succ_of_le hq).ne _ _
  have hdesc : ∀ e ≤ s.descCount, t.sys.desc e = s.sys.desc e :=
    fun e he => Function.update_of_ne (Nat.lt_succ_of_le he).ne _ _
  have hprepared : PreparedFor arraymapGet t m hist { loc := loc, source := .notified } p := by
    refine ⟨h.ctxInit, hm, ?_, ?_, ?_, ?_, ?_, ?_, ?_, ?_⟩
    · refine hlast.frame (fun q k hq => ?_) fun _ => rfl
      exact hq.frame (hpatch q hq.patch_le) (hdesc _ hq.desc_le) (Nat.le_succ _) (Nat.le_succ _)
        hq.patch_ne hq.desc_ne
    · rw [hp, hd]
    · rw [PatchSys.addrOf, hp, hd]
    · -- a notified patch is active, and the new one is not yet
      rintro q k hq rfl
      have hactive := hq.active
      rw [hp] at hactive
      cases hactive
    · intro _
      refine ⟨le_rfl, by rw [hp], fun hinit => ?_⟩
      obtain ⟨hle, hle', -, -⟩ := h.static hinit
      rw [hp]
      exact ⟨(Nat.lt_succ_of_le hle).ne', (Nat.lt_succ_of_le hle').ne'⟩
    · intro hsource
      cases hsource
    · intro hinit
      obtain ⟨hle, hle', hstatic, hloc⟩ := h.static hinit
      refine ⟨Nat.le_succ_of_le hle, Nat.le_succ_of_le hle', ?_, fun _ => ?_, ?_⟩
      · rw [hpatch _ hle, hstatic]
      · rw [hpatch _ hle, hstatic]
      · rw [hdesc _ hle']
        exact hloc
    · exact h.notInit
  have htype : (sys.desc d).type = fixedPatchPoint := by rw [← hprepared.type, hp]; rfl
  obtain ⟨s', hs', hinst⟩ := addFixedPatchToCtx_installed env hprepared.fixedPatches hprepared.type
  refine ⟨{ t with sys := s' }, ?_, hprepared.tracks hmap hinst⟩
  have hnotify : notifyNewPatch env sys d = some s' := by
    rw [notifyNewPatch_fixed env htype]
    exact hs'
  simp only [notifyFixedPatch]
  rw [hnotify]
  rfl

theorem Tracks.setup (h : Tracks arraymapGet s hist) :
    s.setup.isInit = true ∧ s.setup.patch ≤ s.setup.sys.patchCount ∧
      s.setup.desc ≤ s.setup.descCount ∧ s.setup.sys.ctxInit = true ∧
      s.setup.sys.fixedPatches = s.sys.fixedPatches ∧
      (lastLoaded hist ≠ none → (s.setup.sys.patch s.setup.patch).isActive = true ∧
        s.setup.patch = s.patch) ∧
      ∀ q k, Notified s q k → Notified s.setup q k := by
  cases hinit : s.isInit with
  | true =>
      have hsetup : s.setup = s := if_pos hinit
      obtain ⟨hle, hle', hstatic, -⟩ := h.static hinit
      rw [hsetup]
      exact ⟨hinit, hle, hle', h.ctxInit, rfl, fun _ => ⟨by rw [hstatic], rfl⟩, fun _ _ hq => hq⟩
  | false =>
      rw [FixedLoader.setup, hinit]
      refine ⟨rfl, le_rfl, le_rfl, h.ctxInit, rfl, fun hne => absurd (h.notInit hinit) hne, ?_⟩
      intro q k hq
      have hpatch := (Nat.lt_succ_of_le hq.patch_le).ne
      have hdesc := (Nat.lt_succ_of_le hq.desc_le).ne
      exact hq.frame (Function.update_of_ne hpatch _ _) (Function.update_of_ne hdesc _ _)
        (Nat.le_succ _) (Nat.le_succ _) (fun _ => hpatch) fun _ => hdesc

/-- The loader's patch moves, and its descriptor with it. -/
theorem Tracks.loadLocal (h : Tracks arraymapGet s hist) (hmap : ExactMap env arraymapGet)
    {patchList : LocalPatches} {pid : ℤ} (hpid : ¬pid > patchList.count) :
    ∃ s', loadLocalFixedPatch env patchList s pid = some s' ∧
      Tracks arraymapGet s' ({ loc := patchList.loc pid, source := .loaded } :: hist) := by
  obtain ⟨m, hm, hlast⟩ := h.table
  obtain ⟨hinit, hpatch, hdesc, hctx, hfixed, hactive, hnotified⟩ := h.setup
  let r := s.setup
  let sys : PatchSys F := { r.sys with
    desc := Function.update r.sys.desc r.desc
      { type := fixedPatchPoint, addr := patchList.loc pid }
    patch := Function.update r.sys.patch r.patch { r.sys.patch r.patch with desc := r.desc } }
  let t : FixedLoader F := { r with sys := sys }
  have hp : t.sys.patch r.patch = { r.sys.patch r.patch with desc := r.desc } :=
    Function.update_self ..
  have hd : t.sys.desc r.desc = { type := fixedPatchPoint, addr := patchList.loc pid } :=
    Function.update_self ..
  have hprepared : PreparedFor arraymapGet t m hist
      { loc := patchList.loc pid, source := .loaded } r.patch := by
    refine ⟨hctx, hfixed.trans hm, ?_, ?_, ?_, ?_, ?_, ?_, ?_, ?_⟩
    · refine hlast.frame (fun q k hq => ?_) fun hne => (hactive hne).2
      have hr := hnotified q k hq
      exact hr.frame (Function.update_of_ne (hr.patch_ne hinit) _ _)
        (Function.update_of_ne (hr.desc_ne hinit) _ _) le_rfl le_rfl hr.patch_ne hr.desc_ne
    · rw [hp, hd]
    · rw [PatchSys.addrOf, hp, hd]
    · exact fun q k hq => hq.patch_ne hinit
    · intro hsource
      cases hsource
    · exact fun _ => rfl
    · intro _
      refine ⟨hpatch, hdesc, congrArg EbpfPatch.desc hp, fun hne => ?_, ?_⟩
      · rw [hp]
        exact (hactive hne).1
      · rw [lastLoaded_cons, if_pos rfl, hd]
    · intro hfalse
      rw [hinit] at hfalse
      cases hfalse
  obtain ⟨s', hs', hinst⟩ := addFixedPatchToCtx_installed env hprepared.fixedPatches hprepared.type
  refine ⟨{ t with sys := s' }, ?_, hprepared.tracks hmap hinst⟩
  -- `load_local_fixed_patch` initialises the context, which it is already
  have hinitSys : initPatchSys env r.sys = some r.sys := if_pos hctx
  have hload : loadLocalPatchToCtx env sys r.patch = some s' := by
    rw [loadLocalPatchToCtx_fixed env hprepared.type]
    exact hs'
  simp only [loadLocalFixedPatch, if_neg hpid]
  rw [hinitSys, Option.bind_eq_bind, Option.bind_some, hload]
  rfl

theorem Tracks.step (h : Tracks arraymapGet s hist) (hmap : ExactMap env arraymapGet)
    (patchList : LocalPatches) (e : FixedEvent) :
    ∃ s', s.step env patchList e = some s' ∧ Tracks arraymapGet s' (record patchList hist e) := by
  cases e with
  | notify loc => exact h.notify hmap loc
  | loadLocal pid =>
      rw [record]
      by_cases hpid : pid > patchList.count
      · rw [if_pos hpid]
        exact ⟨s, if_pos hpid, h⟩
      · rw [if_neg hpid]
        exact h.loadLocal hmap hpid

/-- An initialised context with nothing installed, and a loader that has not
run. -/
structure FreshLoader (env : Env F) (s : FixedLoader F) : Prop where
  sys : ∃ s₀, s₀.ctxInit = false ∧ initPatchSys env s₀ = some s.sys
  isInit : s.isInit = false

theorem FreshLoader.tracks (hs : FreshLoader env s) (hmap : ExactMap env arraymapGet) :
    Tracks arraymapGet s [] := by
  obtain ⟨s₀, hinit, hs₀⟩ := hs.sys
  have hvals : env.arraymapVals env.arraymapNew = [] := by
    refine List.eq_nil_iff_forall_not_mem.mpr fun v hv => ?_
    obtain ⟨k, hk⟩ := (hmap.mem_vals _ v).mp hv
    rw [hmap.get_new] at hk
    cases hk
  have hsys := initPatchSys_initialised hinit hs₀
  refine ⟨hsys.ctxInit, ⟨env.arraymapNew, hsys.fixedPatches, fun k _ => hmap.get_new k, ?_, ?_⟩, ?_,
    fun _ => rfl, hsys.fbitsFilter hvals⟩
  · intro k hk
    cases hk
  · intro k hk
    cases hk
  · intro htrue
    rw [hs.isInit] at htrue
    cases htrue

theorem FreshLoader.run (hs : FreshLoader env s) (hmap : ExactMap env arraymapGet)
    (patchList : LocalPatches) (events : List FixedEvent) :
    ∃ s', s.run env patchList events = some s' ∧
      Tracks arraymapGet s' (history patchList events) := by
  induction events using List.reverseRecOn with
  | nil => exact ⟨s, rfl, hs.tracks hmap⟩
  | append_singleton events e ih =>
      obtain ⟨s₁, hrun, h₁⟩ := ih
      obtain ⟨s₂, hstep, h₂⟩ := h₁.step hmap patchList e
      refine ⟨s₂, ?_, ?_⟩
      · rw [FixedLoader.run, List.foldlM_append, ← FixedLoader.run, hrun]
        simpa using hstep
      · rw [history, List.foldl_append]
        exact h₂

/-! ### Lookups -/

theorem getFixedPatchByLr_eq_some_iff {sys : PatchSys F} (hm : sys.fixedPatches = some m)
    {lr : BitVec 32} :
    getFixedPatchByLr arraymapGet sys lr = some p ↔
      Passes sys.fbitsFilter lr ∧ arraymapGet m lr = some p ∧ (sys.patch p).isActive = true := by
  unfold getFixedPatchByLr
  by_cases hpass : sys.fbitsFilter &&& lr = lr
  · rw [if_neg (by simp [hpass]), hm]
    cases hget : arraymapGet m lr with
    | none => simp [hget]
    | some q =>
        have hiff : (if (sys.patch q).isActive then some q else none) = some p ↔
            q = p ∧ (sys.patch p).isActive = true := by
          split
          · rename_i hactive
            simp only [Option.some.injEq]
            exact ⟨fun heq => ⟨heq, heq ▸ hactive⟩, fun h => h.1⟩
          · rename_i hactive
            simp only [reduceCtorEq, false_iff, not_and]
            exact fun heq => heq ▸ hactive
        simpa [hget, Passes, hpass] using hiff
  · rw [if_pos hpass]
    constructor
    · intro h
      cases h
    · exact fun h => absurd h.1 hpass

/-- Where the loader's patch was the last one, it is found if the location
passes the filter. -/
theorem Tracks.lookup_loaded (h : Tracks arraymapGet s hist)
    (hk : latestAt hist k = some .loaded) (hpass : Passes (orAll (standing hist)) k) :
    getFixedPatchByLr arraymapGet s.sys k = some s.patch ∧
      lastLoaded hist = some (s.sys.addrOf s.patch) := by
  obtain ⟨m, hm, hlast⟩ := h.table
  have hinit : s.isInit = true := by
    cases hinit : s.isInit with
    | true => rfl
    | false => exact absurd (h.notInit hinit) (lastLoaded_ne_none hk)
  obtain ⟨-, -, hstatic, hloc⟩ := h.static hinit
  refine ⟨(getFixedPatchByLr_eq_some_iff hm).mpr ⟨?_, hlast.loaded k hk, by rw [hstatic]⟩, ?_⟩
  · rw [h.filter]
    exact hpass
  · rw [PatchSys.addrOf, hstatic, hloc]

theorem Tracks.lookup_standing (h : Tracks arraymapGet s hist) (hk : k ∈ standing hist) :
    ∃ p, getFixedPatchByLr arraymapGet s.sys k = some p := by
  have hpass := passes_orAll hk
  obtain ⟨m, hm, hlast⟩ := h.table
  cases hlatest : latestAt hist k with
  | none =>
      rcases mem_standing_iff.mp hk with hnotified | hloaded
      · rw [hlatest] at hnotified
        cases hnotified
      · exact absurd hlatest (latestAt_ne_none hloaded)
  | some source =>
      cases source with
      | notified =>
          obtain ⟨q, hq, hnot⟩ := hlast.notified k hlatest
          exact ⟨q, (getFixedPatchByLr_eq_some_iff hm).mpr ⟨h.filter ▸ hpass, hq, hnot.active⟩⟩
      | loaded => exact ⟨s.patch, (h.lookup_loaded hlatest hpass).1⟩

theorem Tracks.exact_of_not_passes (h : Tracks arraymapGet s hist)
    (hstale : ∀ k, Stale hist k → ¬Passes (orAll (standing hist)) k) {lr : BitVec 32}
    (hp : getFixedPatchByLr arraymapGet s.sys lr = some p) :
    (s.sys.patch p).isActive = true ∧ s.sys.addrOf p = lr := by
  obtain ⟨m, hm, hlast⟩ := h.table
  obtain ⟨hpass, hget, hactive⟩ := (getFixedPatchByLr_eq_some_iff hm).mp hp
  rw [h.filter] at hpass
  refine ⟨hactive, ?_⟩
  cases hlatest : latestAt hist lr with
  | none =>
      rw [hlast.empty lr hlatest] at hget
      cases hget
  | some source =>
      cases source with
      | notified =>
          obtain ⟨q, hq, hnot⟩ := hlast.notified lr hlatest
          obtain rfl : p = q := Option.some.inj (hget.symm.trans hq)
          exact hnot.addr
      | loaded =>
          obtain ⟨hfound, hloc⟩ := h.lookup_loaded hlatest hpass
          obtain rfl : p = s.patch := Option.some.inj (hp.symm.trans hfound)
          by_contra hne
          refine hstale lr ⟨hlatest, ?_⟩ hpass
          rw [hloc]
          simpa using hne

/-- After any installations, lookups of fixed patches are exact if and only if
no stale location passes the filter made from those that stand. -/
theorem exactLookup_iff (env : Env F) (arraymapGet : F → BitVec 32 → Option ℕ)
    (hmap : ExactMap env arraymapGet) (patchList : LocalPatches) (s : FixedLoader F)
    (hs : FreshLoader env s) (events : List FixedEvent) :
    ∃ s', s.run env patchList events = some s' ∧
      (ExactLookup arraymapGet s'.sys (history patchList events) ↔
        ∀ k, Stale (history patchList events) k →
          ¬Passes (orAll (standing (history patchList events))) k) := by
  obtain ⟨s', hrun, h⟩ := hs.run hmap patchList events
  refine ⟨s', hrun, ?_, ?_⟩
  · rintro ⟨hexact, -⟩ k hstale hpass
    obtain ⟨hfound, hloc⟩ := h.lookup_loaded hstale.1 hpass
    have haddr : s'.sys.addrOf s'.patch = k := (hexact k s'.patch hfound).2
    exact hstale.2 (hloc.trans (congrArg some haddr))
  · intro hstale
    exact ⟨fun lr p hp => h.exact_of_not_passes hstale hp, fun k hk => h.lookup_standing hk⟩

end

/-! ### Two local patches -/

/-- A table that is an association list with distinct keys. -/
def alistEnv : Env (AList fun _ : BitVec 32 => ℕ) where
  arraymapNew := ∅
  arraymapSet := fun m k v => m.insert k v
  arraymapVals := fun m => m.entries.map (·.2)
  flash := fun _ => 0xbf00

theorem alistEnv_exact : ExactMap alistEnv fun m k => m.lookup k where
  get_new := fun k => AList.lookup_empty k
  get_set := by
    intro m k v k'
    by_cases hk : k' = k
    · rw [if_pos hk, hk]
      exact AList.lookup_insert m
    · rw [if_neg hk]
      exact AList.lookup_insert_ne hk
  mem_vals := by
    intro m v
    have hmem : ∀ k, m.lookup k = some v ↔ ⟨k, v⟩ ∈ m.entries := fun k => AList.mem_lookup_iff
    constructor
    · intro hv
      obtain ⟨⟨k, v⟩, hkv, rfl⟩ := List.mem_map.mp hv
      exact ⟨k, (hmem k).mpr hkv⟩
    · rintro ⟨k, hk⟩
      exact List.mem_map.mpr ⟨⟨k, v⟩, (hmem k).mp hk, rfl⟩

def cvePatches : LocalPatches where
  count := 4
  loc := fun pid =>
    if pid = 0 then 0x08002950 else if pid = 1 then 0x0000d0be else if pid = 2 then 0x08002c8e
    else if pid = 3 then 0x08002dec else 0

def freshLoader : FixedLoader (AList fun _ : BitVec 32 => ℕ) where
  sys :=
    { ctxInit := true
      fbitsFilter := 0
      dbitsFilterBpkt := 0
      dbitsFilterPc := 0
      fixedPatches := some ∅
      node := fun _ => { patch := 0, next := none, instAddr := 0, pcAddr := 0 }
      nodeCount := 0
      patch := fun _ => { desc := 0, isActive := false }
      patchCount := 0
      desc := fun _ => { type := 0, addr := 0 } }
  descCount := 0
  isInit := false
  desc := 0
  patch := 0

theorem freshLoader_fresh : FreshLoader alistEnv freshLoader where
  sys := by
    refine ⟨{ freshLoader.sys with ctxInit := false, fixedPatches := none }, rfl, ?_⟩
    have hnode : Function.update freshLoader.sys.node 0
        { patch := 0, next := none, instAddr := 0, pcAddr := 0 } = freshLoader.sys.node :=
      Function.update_eq_self 0 freshLoader.sys.node
    simp only [initPatchSys, PatchSys.setNode]
    rw [hnode]
    rfl
  isInit := rfl

/-- `0x08002950` is stale, and does not pass the filter for `0x08002dec`. -/
theorem two_local_patches_exact :
    ∃ s', freshLoader.run alistEnv cvePatches [.loadLocal 0, .loadLocal 3] = some s' ∧
      ExactLookup (fun m k => m.lookup k) s'.sys
        (history cvePatches [.loadLocal 0, .loadLocal 3]) := by
  obtain ⟨s', hrun, hiff⟩ := exactLookup_iff alistEnv _ alistEnv_exact cvePatches freshLoader
    freshLoader_fresh [.loadLocal 0, .loadLocal 3]
  refine ⟨s', hrun, hiff.mpr ?_⟩
  have hhistory : history cvePatches [.loadLocal 0, .loadLocal 3] =
      [{ loc := 0x08002dec, source := .loaded }, { loc := 0x08002950, source := .loaded }] := rfl
  have hstanding : standing (history cvePatches [.loadLocal 0, .loadLocal 3]) = [0x08002dec] := by
    rw [hhistory]
    rfl
  intro k hstale
  have hmem : k ∈ (history cvePatches [.loadLocal 0, .loadLocal 3]).map (·.loc) :=
    mem_map_loc_iff.mpr (by simp [hstale.1])
  rw [hstanding]
  rw [hhistory] at hmem hstale
  obtain rfl | rfl : k = 0x08002dec ∨ k = 0x08002950 := by simpa using hmem
  · exact absurd rfl hstale.2
  · decide

/-- With another patch at `0x0800295c`, it passes: the patch found at
`0x08002950` is the one for `0x08002dec`. -/
theorem moved_patch_found :
    ExactMap alistEnv (fun m k => m.lookup k) ∧ FreshLoader alistEnv freshLoader ∧
      ∃ s', freshLoader.run alistEnv cvePatches
          [.loadLocal 0, .notify 0x0800295c, .loadLocal 3] = some s' ∧
        ∃ p, getFixedPatchByLr (fun m k => m.lookup k) s'.sys 0x08002950 = some p ∧
          (s'.sys.desc (s'.sys.patch p).desc).addr = 0x08002dec := by
  refine ⟨alistEnv_exact, freshLoader_fresh, ?_⟩
  refine ⟨(freshLoader.run alistEnv cvePatches
    [.loadLocal 0, .notify 0x0800295c, .loadLocal 3]).get (by decide), ?_, 1, ?_, ?_⟩
  · exact (Option.some_get _).symm
  · decide
  · decide

end RapidPatch.Hotpatch
