import Mathlib.Data.List.Find
import RapidPatch.Hotpatch.Comparators
import RapidPatch.Hotpatch.UpdateServer

/-!
What the update service has installed.

`listed` is the list of dynamic patches that some packets make, as a function
of the packets alone. Whatever arrives over whatever connection, the context of
the device is the one that the packets handed to `notify_new_patch` make
(`Installed`, kept by every turn of the loop), so a lookup by breakpoint address
is a lookup in `listed`. There a patch may replace another one or hide it;
patches for different words of the code, no more of them than there are
comparators, are all found and all have a breakpoint
(`separate_patches_installed`).
-/

namespace RapidPatch.Hotpatch

open RapidPatch.Support

def Packet.word (p : Packet) : BitVec 32 := p.instAddr &&& ~~~0x3#32

def Packet.Dynamic (p : Packet) : Prop := p.type = dynamicPatchPoint

instance Packet.dynamicDecidable : DecidablePred Packet.Dynamic := fun p =>
  inferInstanceAs (Decidable (p.type = dynamicPatchPoint))

variable {F σ : Type} {env : Env F} {conn : Connection σ} {d d' : Device F σ} {p : Packet}
  {ps : List Packet}

/-- The entries behind some packets, the last of them first. -/
def listed (env : Env F) : List Packet → List Entry
  | [] => []
  | p :: ps =>
      if p.Dynamic then addEntry (listed env ps) p.word (newEntry env p.word (ps.length + 1))
      else listed env ps

/-! ### One packet -/

theorem notifyNewPatch_other (env : Env F) {s : PatchSys F} (hfixed : s.fixedPatches ≠ none)
    {n : ℕ} (htype : (s.desc n).type ≠ dynamicPatchPoint) :
    ∃ t s', notifyNewPatch env s n = some s' ∧ t.node = s.node ∧ t.nodeCount = s.nodeCount ∧
      t.patch = (ebpfPatchSetup s n).1.patch ∧ t.patchCount = s.patchCount + 1 ∧
      t.fixedPatches ≠ none ∧ t.desc = s.desc ∧ Activates t (s.patchCount + 1) s' ∧
      s'.desc = t.desc := by
  have hadd : ∃ t, addEbpfPatch env s n = some (t, s.patchCount + 1) ∧ t.node = s.node ∧
      t.nodeCount = s.nodeCount ∧ t.patch = (ebpfPatchSetup s n).1.patch ∧
      t.patchCount = s.patchCount + 1 ∧ t.fixedPatches ≠ none ∧ t.desc = s.desc := by
    obtain ⟨fixed, hfixed⟩ := Option.ne_none_iff_exists'.mp hfixed
    unfold addEbpfPatch
    dsimp only
    split
    · simp [addFixedPatchToCtx, ebpfPatchSetup, hfixed]
    · rw [if_neg (show ((ebpfPatchSetup s n).1.desc n).type ≠ dynamicPatchPoint from htype)]
      exact ⟨_, rfl, rfl, rfl, rfl, rfl, by simp [ebpfPatchSetup, hfixed], rfl⟩
  obtain ⟨t, hadd, hnode, hnodes, hpatch, hpatches, hfixed', hdesc⟩ := hadd
  obtain ⟨s', hs'⟩ := activePatch_isSome env hfixed' (s.patchCount + 1)
  refine ⟨t, s', ?_, hnode, hnodes, hpatch, hpatches, hfixed', hdesc,
    (activePatch_activates hs').2, activePatch_desc hs'⟩
  rw [notifyNewPatch, hadd]
  exact hs'

/-- The context is what the packets so far have made of a fresh one. -/
structure Installed (env : Env F) (d : Device F σ) : Prop where
  lists : ∃ l, Lists d.sys l
  fixed : d.sys.fixedPatches ≠ none
  entries : d.sys.entries = listed env d.calls.reverse
  filter : d.sys.dbitsFilterBpkt = filterBits d.sys.entries
  patchCount : d.sys.patchCount = d.calls.length
  active : ∀ q, 0 < q → q ≤ d.calls.length → (d.sys.patch q).isActive = true

theorem mem_addEntry {es : List Entry} {addr : BitVec 32} {e x : Entry}
    (hx : x ∈ addEntry es addr e) : x ∈ es ∨ x = e := by
  rw [addEntry_eq, List.mem_append, List.mem_singleton] at hx
  exact hx.imp_left fun h => (keptEntries_initial es addr).subset h

theorem patch_of_mem_listed {e : Entry} (he : e ∈ listed env ps) :
    0 < e.patch ∧ e.patch ≤ ps.length := by
  induction ps with
  | nil => cases he
  | cons p ps ih =>
      have hold : e ∈ listed env ps → 0 < e.patch ∧ e.patch ≤ ps.length + 1 :=
        fun h => ⟨(ih h).1, Nat.le_succ_of_le (ih h).2⟩
      rw [listed] at he
      rw [List.length_cons]
      split at he
      · rcases mem_addEntry he with h | rfl
        · exact hold h
        · exact ⟨Nat.succ_pos _, Nat.le_refl _⟩
      · exact hold he

theorem Installed.receive (h : Installed env d) (p : Packet) :
    ∃ d', notifyPacket env d p = some d' ∧ d'.calls = d.calls ++ [p] ∧ Installed env d' := by
  obtain ⟨l, hl⟩ := h.lists
  let n := d.descCount + 1
  let s : PatchSys F := { d.sys with
    desc := Function.update d.sys.desc n { type := p.type, addr := p.instAddr } }
  have hdesc : s.desc n = { type := p.type, addr := p.instAddr } := Function.update_self _ _ _
  have hls : Lists s l := hl.congr rfl (Nat.le_refl _) (Nat.le_refl _) id
  have hentries : s.entriesOf l = listed env d.calls.reverse := hl.entries.symm.trans h.entries
  have hcount : d.sys.patchCount + 1 = d.calls.reverse.length + 1 := by
    rw [h.patchCount, List.length_reverse]
  have hnotify : ∀ s', notifyNewPatch env s n = some s' →
      notifyPacket env d p =
        some { d with sys := s', descCount := n, calls := d.calls ++ [p] } := by
    intro s' hs'
    simp only [notifyPacket]
    rw [show notifyNewPatch env _ (d.descCount + 1) = some s' from hs']
    rfl
  -- the patches so far are as they were, and the new one is active
  have hactive : ∀ s' : PatchSys F, (∀ q ≤ d.sys.patchCount, s'.patch q = d.sys.patch q) →
      (s'.patch (d.sys.patchCount + 1)).isActive = true →
      ∀ q, 0 < q → q ≤ (d.calls ++ [p]).length → (s'.patch q).isActive = true := by
    intro s' hold hnew q hpos hq
    rw [List.length_append, List.length_singleton] at hq
    rcases Nat.lt_or_eq_of_le hq with hlt | rfl
    · rw [hold q (by rw [h.patchCount]; omega)]
      exact h.active q hpos (by omega)
    · rwa [← h.patchCount]
  by_cases htype : p.Dynamic
  · obtain ⟨s', l', hs', hn⟩ := notifyNewPatch_notified env hls h.fixed (d := n)
      ((congrArg PatchDesc.type hdesc).trans htype)
    have hword : s.wordAddr n = p.word := by
      rw [PatchSys.wordAddr, hdesc]
      rfl
    refine ⟨{ d with sys := s', descCount := n, calls := d.calls ++ [p] }, hnotify s' hs', rfl,
      ⟨l', hn.lists⟩, hn.fixed, ?_, ?_, ?_, ?_⟩
    · show s'.entries = listed env (d.calls ++ [p]).reverse
      rw [hn.lists.entries, hn.entries, hword, hentries, List.reverse_concat]
      show addEntry _ _ (newEntry env p.word (d.sys.patchCount + 1)) = _
      rw [listed, if_pos htype, hcount]
    · show s'.dbitsFilterBpkt = filterBits s'.entries
      rw [hn.lists.entries, hn.filter]
    · show s'.patchCount = (d.calls ++ [p]).length
      rw [hn.patchCount, List.length_append, ← h.patchCount]
      rfl
    · refine hactive s' hn.old ?_
      rw [show s'.patch (d.sys.patchCount + 1) = _ from hn.new]
  · have hother : (s.desc n).type ≠ dynamicPatchPoint := by
      rw [hdesc]
      exact htype
    obtain ⟨t, s', hs', hnode, hnodes, hpatch, hpatches, hfixed, -, ha, -⟩ :=
      notifyNewPatch_other env (s := s) h.fixed hother
    have hlt : Lists t l := hls.congr hnode (Nat.le_of_eq hnodes.symm)
      (by rw [hpatches]; exact Nat.le_succ _) fun hnone => absurd hnone hfixed
    have hls' := ha.lists hlt
    have hsame : s'.entriesOf l = s.entriesOf l := by
      simp only [PatchSys.entriesOf, ha.node, hnode]
    refine ⟨{ d with sys := s', descCount := n, calls := d.calls ++ [p] }, hnotify s' hs', rfl,
      ⟨l, hls'⟩, ?_, ?_, ?_, ?_, ?_⟩
    · show s'.fixedPatches ≠ none
      rwa [ha.fixedPatches]
    · show s'.entries = listed env (d.calls ++ [p]).reverse
      rw [hls'.entries, hsame, hentries, List.reverse_concat, listed, if_neg htype]
    · show s'.dbitsFilterBpkt = filterBits s'.entries
      rw [ha.filter, hls'.entries, hlt.entries, hsame]
      simp only [PatchSys.entriesOf, hnode]
    · show s'.patchCount = (d.calls ++ [p]).length
      rw [ha.patchCount, hpatches, List.length_append, ← h.patchCount]
      rfl
    · refine hactive s' ?_ ?_
      · intro q hq
        rw [ha.patch, Function.update_of_ne (Nat.ne_of_lt (Nat.lt_succ_of_le hq)), hpatch]
        exact Function.update_of_ne (Nat.ne_of_lt (Nat.lt_succ_of_le hq)) _ _
      · show (s'.patch (s.patchCount + 1)).isActive = true
        rw [ha.patch, Function.update_self]

/-! ### The service -/

theorem Installed.turn (h : Installed env d) (hstep : waitTurn env conn d = .cont d') :
    Installed env d' := by
  obtain ⟨cmd, -, hdispatch⟩ := waitTurn_cont hstep
  have hreceive : Installed env (receiveCommand conn d).2 := ⟨h.1, h.2, h.3, h.4, h.5, h.6⟩
  generalize (receiveCommand conn d).2 = e at hdispatch hreceive
  unfold dispatchPatchCommand at hdispatch
  split at hdispatch
  · cases hdispatch
    exact ⟨hreceive.1, hreceive.2, hreceive.3, hreceive.4, hreceive.5, hreceive.6⟩
  · have hread : Installed env { e with
        buf := (readLoad conn e.buf e.link).buf
        link := (readLoad conn e.buf e.link).link } :=
      ⟨hreceive.1, hreceive.2, hreceive.3, hreceive.4, hreceive.5, hreceive.6⟩
    obtain ⟨e', he', -, hinst⟩ := hread.receive (readLoad conn e.buf e.link).packet
    cases hdispatch.symm.trans he'
    exact hinst
  · cases hdispatch
    exact ⟨hreceive.1, hreceive.2, hreceive.3, hreceive.4, hreceive.5, hreceive.6⟩
  · cases hdispatch
    exact hreceive

/-- A service whose context has just been initialised. -/
structure FreshService (env : Env F) (d : Device F σ) : Prop where
  sys : ∃ s, s.ctxInit = false ∧ initPatchSys env s = some d.sys
  patchCount : d.sys.patchCount = 0
  calls : d.calls = []

theorem FreshService.installed (h : FreshService env d) : Installed env d := by
  obtain ⟨s, hinit, hs⟩ := h.sys
  have hsys := initPatchSys_initialised hinit hs
  have hentries : d.sys.entries = [] := (Lists.nil hsys.next).entries
  refine ⟨⟨[], Lists.nil hsys.next⟩, ?_, ?_, ?_, ?_, ?_⟩
  · rw [hsys.fixedPatches]
    exact Option.some_ne_none _
  · rw [hentries, h.calls]
    rfl
  · rw [hentries, hsys.dbitsFilterBpkt]
    rfl
  · rw [h.patchCount, h.calls]
    rfl
  · intro q hpos hq
    rw [h.calls] at hq
    exact absurd hq (Nat.not_le_of_lt hpos)

/-- In every state the service reaches, whatever it is sent. -/
theorem FreshService.reaches (h : FreshService env d) (hd : Reaches (waitTurn env conn) d d') :
    Installed env d' :=
  hd.invariant (P := Installed env) (fun _ _ he hstep => he.turn hstep) h.installed

/-- A lookup by breakpoint address is a lookup in the list that the packets
make. -/
theorem Installed.lookup (h : Installed env d) (loc : BitVec 32) :
    getDynamicPatchByBpkt d.sys loc =
      ((listed env d.calls.reverse).find? (·.instAddr = loc)).map (·.patch) := by
  obtain ⟨l, hl⟩ := h.lists
  have hentries : d.sys.entriesOf l = listed env d.calls.reverse := hl.entries.symm.trans h.entries
  have hactive : ∀ e ∈ listed env d.calls.reverse,
      isActiveAt d.sys loc e = decide (e.instAddr = loc) := by
    intro e he
    obtain ⟨hpos, hle⟩ := patch_of_mem_listed he
    rw [List.length_reverse] at hle
    rw [isActiveAt, h.active e.patch hpos hle, Bool.and_true]
  rw [getDynamicPatchByBpkt_eq hl, h.filter, hl.entries, hentries, List.find?_congr hactive]
  split
  · rename_i hmiss
    -- an address that is listed passes the filter
    rw [List.find?_eq_none.mpr, Option.map_none]
    intro e he haddr
    refine hmiss ?_
    rw [← of_decide_eq_true haddr]
    exact filterBits_covers he
  · rfl

/-! ### Patches for different words -/

/-- The dynamic patches are for different words of the code, and there is a
comparator for each. -/
structure Separate (ps : List Packet) : Prop where
  count : (ps.filter Packet.Dynamic).length ≤ maxBp
  code : ∀ p ∈ ps, p.Dynamic → p.instAddr.toNat < 0x20000000
  distinct : ps.Pairwise fun p q => p.Dynamic → q.Dynamic → p.word ≠ q.word

theorem Separate.codeWord (h : Separate ps) (hp : p ∈ ps) (hdynamic : p.Dynamic) :
    CodeWord p.word := .of_and (h.code p hp hdynamic)

theorem Separate.initial {qs : List Packet} (h : Separate (ps ++ qs)) : Separate ps where
  count := by
    have hcount := h.count
    rw [List.filter_append, List.length_append] at hcount
    omega
  code := fun p hp => h.code p (List.mem_append_left _ hp)
  distinct := (List.pairwise_append.mp h.distinct).1

theorem listed_concat (env : Env F) (ps : List Packet) (p : Packet) :
    listed env (ps ++ [p]).reverse =
      if p.Dynamic then
        addEntry (listed env ps.reverse) p.word (newEntry env p.word (ps.length + 1))
      else listed env ps.reverse := by
  rw [List.reverse_concat, listed, List.length_reverse]

/-- Such patches are listed one behind the other. -/
theorem Separate.listed_eq (h : Separate ps) :
    (listed env ps.reverse).length = (ps.filter Packet.Dynamic).length ∧
      ∀ e, e ∈ listed env ps.reverse ↔
        ∃ n p, ps[n]? = some p ∧ p.Dynamic ∧ e = newEntry env p.word (n + 1) := by
  induction ps using List.reverseRecOn with
  | nil => exact ⟨rfl, fun e => ⟨fun he => (nomatch he), fun ⟨_, _, hp, _⟩ => (nomatch hp)⟩⟩
  | append_singleton ps p ih =>
      obtain ⟨hlen, hmem⟩ := ih h.initial
      have hsplit : ∀ e : Entry,
          (∃ n q, (ps ++ [p])[n]? = some q ∧ q.Dynamic ∧ e = newEntry env q.word (n + 1)) ↔
            e ∈ listed env ps.reverse ∨ p.Dynamic ∧ e = newEntry env p.word (ps.length + 1) := by
        intro e
        rw [hmem]
        constructor
        · rintro ⟨n, q, hq, hdynamic, he⟩
          rcases Nat.lt_trichotomy n ps.length with hlt | rfl | hgt
          · rw [List.getElem?_append_left hlt] at hq
            exact .inl ⟨n, q, hq, hdynamic, he⟩
          · rw [List.getElem?_concat_length] at hq
            cases hq
            exact .inr ⟨hdynamic, he⟩
          · rw [List.getElem?_eq_none (by simpa using Nat.succ_le_of_lt hgt)] at hq
            cases hq
        · rintro (⟨n, q, hq, hdynamic, he⟩ | ⟨hdynamic, he⟩)
          · exact ⟨n, q, (List.getElem?_append_left (List.getElem?_eq_some_iff.mp hq).1).trans hq,
              hdynamic, he⟩
          · exact ⟨ps.length, p, List.getElem?_concat_length, hdynamic, he⟩
      rw [listed_concat, List.filter_append, List.length_append]
      by_cases hdynamic : p.Dynamic
      · -- the word is new, and there is room
        have hnew : ∀ e ∈ listed env ps.reverse, e.instAddr ≠ p.word := by
          intro e he heq
          obtain ⟨n, q, hq, hq', rfl⟩ := (hmem e).mp he
          have hqmem : q ∈ ps := List.mem_of_getElem? hq
          have hword := h.initial.codeWord hqmem hq'
          rw [newEntry, calcBpktAddr_of_aligned hword.aligned hword.lt] at heq
          exact (List.pairwise_append.mp h.distinct).2.2 q hqmem p (List.mem_singleton_self p)
            hq' hdynamic heq
        have hroom := h.count
        rw [List.filter_append, List.length_append] at hroom
        have hfit : ¬(listed env ps.reverse).length > maxDpNum := by
          rw [hlen, maxDpNum]
          rw [maxBp] at hroom
          omega
        rw [if_pos hdynamic, addEntry_of_forall_ne hnew, if_neg hfit]
        refine ⟨?_, fun e => ?_⟩
        · rw [List.length_append, hlen]
          simp [hdynamic]
        · rw [hsplit, List.mem_append, List.mem_singleton]
          simp [hdynamic]
      · rw [if_neg hdynamic]
        refine ⟨?_, fun e => ?_⟩
        · rw [hlen]
          simp [hdynamic]
        · rw [hsplit]
          simp [hdynamic]

/-- Each is found at its word, and nothing is found elsewhere. -/
theorem Installed.lookup_iff (h : Installed env d) (hsep : Separate d.calls) (loc : BitVec 32)
    (q : ℕ) :
    getDynamicPatchByBpkt d.sys loc = some q ↔
      ∃ n p, q = n + 1 ∧ d.calls[n]? = some p ∧ p.Dynamic ∧ p.word = loc := by
  have hmem : ∀ e, e ∈ listed env d.calls.reverse ↔
      ∃ n p, d.calls[n]? = some p ∧ p.Dynamic ∧ e = newEntry env p.word (n + 1) :=
    hsep.listed_eq.2
  have haddr : ∀ {n p}, d.calls[n]? = some p → p.Dynamic →
      (newEntry env p.word (n + 1)).instAddr = p.word := by
    intro n p hp hdynamic
    have hword := hsep.codeWord (List.mem_of_getElem? hp) hdynamic
    exact calcBpktAddr_of_aligned hword.aligned hword.lt
  rw [h.lookup, Option.map_eq_some_iff]
  constructor
  · rintro ⟨e, he, rfl⟩
    obtain ⟨n, p, hp, hdynamic, rfl⟩ := (hmem e).mp (List.mem_of_find?_eq_some he)
    have hword : p.word = loc :=
      (haddr hp hdynamic).symm.trans (by simpa using List.find?_some he)
    exact ⟨n, p, rfl, hp, hdynamic, hword⟩
  · rintro ⟨n, p, rfl, hp, hdynamic, rfl⟩
    have he := (hmem _).mpr ⟨n, p, hp, hdynamic, rfl⟩
    obtain ⟨x, hx⟩ : ∃ x, (listed env d.calls.reverse).find? (·.instAddr = p.word) = some x := by
      rw [← Option.isSome_iff_exists, List.find?_isSome]
      exact ⟨_, he, decide_eq_true (haddr hp hdynamic)⟩
    obtain ⟨m, q, hq, hq', rfl⟩ := (hmem x).mp (List.mem_of_find?_eq_some hx)
    have hwords : q.word = p.word :=
      (haddr hq hq').symm.trans (by simpa using List.find?_some hx)
    obtain ⟨hn, rfl⟩ := List.getElem?_eq_some_iff.mp hp
    obtain ⟨hm, rfl⟩ := List.getElem?_eq_some_iff.mp hq
    have hpairs := List.pairwise_iff_getElem.mp hsep.distinct
    rcases Nat.lt_trichotomy m n with hlt | rfl | hgt
    · exact absurd hwords (hpairs m n hm hn hlt hq' hdynamic)
    · exact ⟨_, hx, rfl⟩
    · exact absurd hwords.symm (hpairs n m hn hm hgt hdynamic hq')

/-! ### The comparators -/

/-- What `active_patch` does to the unit for the patch of a packet. -/
def armPacket (env : Env F) (handler : ℕ → BitVec 32) (f : Fpb) (p : Packet) : Fpb :=
  armPatch env handler f { type := p.type, addr := p.word }

theorem armPacket_eq (env : Env F) (handler : ℕ → BitVec 32) (f : Fpb) (p : Packet) :
    armPacket env handler f p =
      if p.Dynamic then (addHwBkpt env.flash handler f p.word).1 else f := rfl

def Device.fpb (env : Env F) (handler : ℕ → BitVec 32) (f : Fpb) (d : Device F σ) : Fpb :=
  d.calls.foldl (armPacket env handler) f

theorem Installed.notifyNewPatch_fpb (h : Installed env d) (handler : ℕ → BitVec 32) (f : Fpb)
    (hp : notifyPacket env d p = some d') :
    PatchedDevice.notifyNewPatch env handler
        { sys := { d.sys with
            desc := Function.update d.sys.desc (d.descCount + 1)
              { type := p.type, addr := p.instAddr } }
          fpb := f } (d.descCount + 1) =
      some { sys := d'.sys, fpb := armPacket env handler f p } := by
  obtain ⟨l, hl⟩ := h.lists
  generalize hs : ({ d.sys with
    desc := Function.update d.sys.desc (d.descCount + 1)
      { type := p.type, addr := p.instAddr } } : PatchSys F) = s
  have hfixed : s.fixedPatches ≠ none := by
    rw [← hs]
    exact h.fixed
  have hls : Lists s l := by
    rw [← hs]
    exact hl.congr rfl (Nat.le_refl _) (Nat.le_refl _) id
  have hdesc : s.desc (d.descCount + 1) = { type := p.type, addr := p.instAddr } := by
    rw [← hs]
    exact Function.update_self _ _ _
  obtain ⟨s', hs', rfl⟩ : ∃ s', notifyNewPatch env s (d.descCount + 1) = some s' ∧
      { d with sys := s', descCount := d.descCount + 1, calls := d.calls ++ [p] } = d' := by
    simp only [notifyPacket, hs, Option.bind_eq_bind, Option.bind_eq_some_iff] at hp
    obtain ⟨s', hs', hd'⟩ := hp
    exact ⟨s', hs', Option.some.inj hd'⟩
  simp only [PatchedDevice.notifyNewPatch, hs', Option.bind_eq_bind, Option.bind_some]
  refine congrArg (fun g => some (PatchedDevice.mk s' g)) ?_
  by_cases hdynamic : p.Dynamic
  · have htype : (s.desc (d.descCount + 1)).type = dynamicPatchPoint := by
      rw [hdesc]
      exact hdynamic
    obtain ⟨t, l', ht, hn⟩ := notifyNewPatch_notified env hls hfixed htype
    cases hs'.symm.trans ht
    rw [hn.armPatch handler htype, armPacket_eq, if_pos hdynamic, PatchSys.wordAddr, hdesc]
    rfl
  · have htype : (s.desc (d.descCount + 1)).type ≠ dynamicPatchPoint := by
      rw [hdesc]
      exact hdynamic
    obtain ⟨t, u, hu, -, -, -, -, -, hkept, -, ha⟩ := notifyNewPatch_other env hfixed htype
    cases hs'.symm.trans hu
    rw [armPacket_eq, armPatch, ha, hkept, if_neg htype, if_neg hdynamic]

theorem fpb_eq_addHwBkpts (env : Env F) (handler : ℕ → BitVec 32) (f : Fpb) (ps : List Packet) :
    ps.foldl (armPacket env handler) f =
      addHwBkpts env.flash handler f ((ps.filter Packet.Dynamic).map Packet.word) := by
  induction ps generalizing f with
  | nil => rfl
  | cons p ps ih =>
      rw [List.foldl_cons, ih, armPacket_eq]
      by_cases hdynamic : p.Dynamic
      · rw [if_pos hdynamic, List.filter_cons, if_pos (decide_eq_true hdynamic)]
        rfl
      · rw [if_neg hdynamic, List.filter_cons, if_neg (by simpa using hdynamic)]

theorem Separate.breaksAt (h : Separate ps) (env : Env F) (handler : ℕ → BitVec 32) {f : Fpb}
    (hf : f.Cleared) (hp : p ∈ ps) (hdynamic : p.Dynamic) :
    (ps.foldl (armPacket env handler) f).BreaksAt p.word := by
  have hlt : ∀ a ∈ (ps.filter Packet.Dynamic).map Packet.word, a.toNat < 0x20000000 := by
    intro a ha
    obtain ⟨q, hq, rfl⟩ := List.mem_map.mp ha
    obtain ⟨hq, hq'⟩ := List.mem_filter.mp hq
    exact (h.codeWord hq (of_decide_eq_true hq')).lt
  have hcur : f.curIdx ≤ maxBp := by
    rw [hf.curIdx]
    exact Nat.zero_le _
  rw [fpb_eq_addHwBkpts]
  obtain ⟨-, hslots, -⟩ := addHwBkpts_slots env.flash handler hf.monitor hcur hlt
  refine Fpb.Holds.breaksAt ?_ (h.codeWord hp hdynamic)
  have hfree : ¬f.slots.Holds maxBp (fpComp p.word) := by
    rintro ⟨i, hi, heq⟩
    exact fpComp_ne_zero _ (heq.symm.trans (hf.comp i hi))
  have hmem : fpComp p.word ∈ ((ps.filter Packet.Dynamic).map Packet.word).map fpComp :=
    List.mem_map_of_mem (List.mem_map_of_mem (List.mem_filter.mpr ⟨hp, decide_eq_true hdynamic⟩))
  have hcount := Slots.addAll_holds_of_mem f.nextComp_lt hfree (by simpa using h.count) hmem
  rw [← hslots] at hcount
  exact hcount

/-- Whatever the service has been sent over a connection: a lookup by breakpoint
address is one in the list of the packets it has received. Where these are
patches for different words of the code, and no more than there are comparators,
the patch that is found at a word is that of the packet for the word, and each
has a breakpoint there. -/
theorem separate_patches_installed (env : Env F) (conn : Connection σ) (handler : ℕ → BitVec 32)
    (d d' : Device F σ) (f : Fpb) (hfresh : FreshService env d) (hclear : f.Cleared)
    (hreach : Reaches (waitTurn env conn) d d') :
    (∀ loc, getDynamicPatchByBpkt d'.sys loc =
      ((listed env d'.calls.reverse).find? (·.instAddr = loc)).map (·.patch)) ∧
    (Separate d'.calls →
      (∀ loc q, getDynamicPatchByBpkt d'.sys loc = some q ↔
        ∃ n p, q = n + 1 ∧ d'.calls[n]? = some p ∧ p.Dynamic ∧ p.word = loc) ∧
      ∀ p ∈ d'.calls, p.Dynamic → (d'.fpb env handler f).BreaksAt p.word) := by
  have h := hfresh.reaches hreach
  refine ⟨h.lookup, fun hsep => ⟨h.lookup_iff hsep, fun p hp hdynamic => ?_⟩⟩
  exact hsep.breaksAt env handler hclear hp hdynamic

/-! ### What the server was given -/

/-- Entries whose dynamic patches are for different words of the code, no more
of them than there are comparators. -/
structure SeparateConfs (cs : List Conf) : Prop where
  count : (cs.filter (·.type = 2)).length ≤ maxBp
  code : ∀ c ∈ cs, c.type = 2 → c.loc < 0x20000000
  distinct : cs.Pairwise fun c c' => c.type = 2 → c'.type = 2 → c.loc / 4 ≠ c'.loc / 4

theorem dynamic_iff (p : Packet) : p.Dynamic ↔ p.conf.type = 2 := by
  rw [Packet.Dynamic, BitVec.toNat_inj.symm]
  rfl

theorem Packet.toNat_word (p : Packet) : p.word.toNat = p.conf.loc / 4 * 4 :=
  toNat_and_not_three p.instAddr

theorem SeparateConfs.packets (h : SeparateConfs (ps.map Packet.conf)) : Separate ps where
  count := by
    have hcount := h.count
    rw [List.filter_map, List.length_map] at hcount
    simpa only [dynamic_iff, Function.comp_def] using hcount
  code := by
    intro p hp hdynamic
    exact h.code p.conf (List.mem_map_of_mem hp) ((dynamic_iff p).mp hdynamic)
  distinct := by
    refine (List.pairwise_map.mp h.distinct).imp ?_
    intro p q hne hp hq hword
    have hnat := congrArg BitVec.toNat hword
    rw [p.toNat_word, q.toNat_word] at hnat
    exact hne ((dynamic_iff p).mp hp) ((dynamic_iff q).mp hq) (by omega)

theorem exitPatch_installed :
    ∃ d', Reaches (waitTurn listEnv (streamConnection fun _ => 0))
        (serviceOn (frame exitPatch)) d' ∧
      getDynamicPatchByBpkt d'.sys 0x08000100 = some 1 ∧
      (d'.fpb listEnv (fun _ => 0) clearDevice.fpb).BreaksAt 0x08000100 := by
  have hvalid : exitPatch.Valid := ⟨by decide, by decide, by decide⟩
  have hbytes : (serviceOn (frame exitPatch)).link.bytes = frame exitPatch ++ [] :=
    (List.append_nil _).symm
  obtain ⟨r, hload, -, hconf⟩ := nextLoad_frame hvalid (fun _ => 0) rfl hbytes
  obtain ⟨d', hturn, -, hcalls, -, -⟩ :=
    waitTurn_load listEnv hload (serviceOn_fixedPatches _)
  have hreach := Reaches.single hturn
  have hpackets : d'.calls = [r.packet] := hcalls
  obtain ⟨-, hsep⟩ := separate_patches_installed listEnv (streamConnection fun _ => 0) (fun _ => 0)
    (serviceOn (frame exitPatch)) d' clearDevice.fpb ⟨⟨threeDescs, rfl, rfl⟩, rfl, rfl⟩
    ⟨clearDevice_fresh.monitor, rfl, clearDevice_fresh.clear⟩ hreach
  have hdynamic : r.packet.Dynamic := by
    rw [dynamic_iff, hconf]
    rfl
  have hword : r.packet.word = 0x08000100 := by
    apply BitVec.eq_of_toNat_eq
    rw [Packet.toNat_word, hconf]
    rfl
  rw [hpackets] at hsep
  obtain ⟨hlookup, hbreaks⟩ := hsep (SeparateConfs.packets (by
    rw [List.map_singleton, hconf]
    exact ⟨by decide, by decide, List.pairwise_singleton _ _⟩))
  refine ⟨d', hreach, (hlookup _ _).mpr ⟨0, r.packet, rfl, rfl, hdynamic, hword⟩, ?_⟩
  have hbreak := hbreaks r.packet (List.mem_singleton_self _) hdynamic
  rwa [hword] at hbreak

end RapidPatch.Hotpatch
