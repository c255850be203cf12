import RapidPatch.Patches.LoopFree

/-!
The two patches for `freertos_cve_2018_16528`.

`save_xstatus` runs where a connection has been made, or not, and saves the
status in the map of the helpers under the connection; `filter_close_failed`
asks the map in front of a receive and redirects the call if the status is zero.
The map is a single word: `tmp_map_save_val` and `tmp_map_get_val` do not look at
the key.

`SocketRun` is any order of runs of the two programs, with anything in between
that leaves this word alone. The filter always answers for the status that was
saved last, whatever connection it is of, so it answers for the connection it is
asked about exactly where the two statuses are both zero or both not
(`socketRun_answers`).
-/

namespace RapidPatch.Patches

open RapidPatch.Support RapidPatch.Vm RapidPatch.Hotpatch

/-! ### The helpers -/

/-- `tmp_map_save_val`, with the address of `dval`. It returns nothing, and the
caller takes what it finds for a result. -/
def tmpMapSaveVal (dval : BitVec 32) (found : Mem → BitVec 64) : ExtFunc :=
  fun _mp _key val _ _ mem => (found mem, storeLE mem dval 8 val.toNat)

def tmpMapGetVal (dval : BitVec 32) : ExtFunc :=
  fun _mp _key _ _ _ mem => (load64 mem dval, mem)

/-- The helpers of `set_default_helpers` that the patches call. -/
structure DefaultHelpers (dval : BitVec 32) (c : Call) : Prop where
  mapSet : ∃ found, c.vm.extFuncs 3 = some (tmpMapSaveVal dval found)
  mapGet : c.vm.extFuncs 4 = some (tmpMapGetVal dval)

/-! ### The sources -/

/-- `save_xstatus`, with memory behind it. -/
def saveXstatus (dval : BitVec 32) (mem : Mem) (ctx : BitVec 32) : BitVec 64 × Mem :=
  let xStatus := (stackContextAt mem ctx).r1
  (setReturn 0 0, storeLE mem dval 8 (xStatus.signExtend 64).toNat)

def filterCloseFailed (dval : BitVec 32) (mem : Mem) : BitVec 64 :=
  let val := (load64 mem dval).setWidth 32
  if val = 0#32 then setReturn 2 2000 else setReturn 0 0

/-! ### The programs -/

/-- `freertos_cve_2018_16528_1`. -/
def freertosCve16528Save : List (BitVec 8) :=
  [0x61, 0x13, 0x04, 0x00, 0x00, 0x00, 0x00, 0x00, 0x61, 0x12, 0x00, 0x00, 0x00, 0x00, 0x00, 0x00,
   0x67, 0x02, 0x00, 0x00, 0x20, 0x00, 0x00, 0x00, 0xc7, 0x02, 0x00, 0x00, 0x20, 0x00, 0x00, 0x00,
   0x67, 0x03, 0x00, 0x00, 0x20, 0x00, 0x00, 0x00, 0xc7, 0x03, 0x00, 0x00, 0x20, 0x00, 0x00, 0x00,
   0xb7, 0x01, 0x00, 0x00, 0x00, 0x00, 0x00, 0x00, 0x85, 0x00, 0x00, 0x00, 0x03, 0x00, 0x00, 0x00,
   0xb7, 0x00, 0x00, 0x00, 0x00, 0x00, 0x00, 0x00, 0x95, 0x00, 0x00, 0x00, 0x00, 0x00, 0x00, 0x00]

/-- `freertos_cve_2018_16528_2`. -/
def freertosCve16528Check : List (BitVec 8) :=
  [0x61, 0x12, 0x00, 0x00, 0x00, 0x00, 0x00, 0x00, 0x67, 0x02, 0x00, 0x00, 0x20, 0x00, 0x00, 0x00,
   0xc7, 0x02, 0x00, 0x00, 0x20, 0x00, 0x00, 0x00, 0xb7, 0x01, 0x00, 0x00, 0x00, 0x00, 0x00, 0x00,
   0x85, 0x00, 0x00, 0x00, 0x04, 0x00, 0x00, 0x00, 0xbf, 0x01, 0x00, 0x00, 0x00, 0x00, 0x00, 0x00,
   0x67, 0x01, 0x00, 0x00, 0x20, 0x00, 0x00, 0x00, 0x77, 0x01, 0x00, 0x00, 0x20, 0x00, 0x00, 0x00,
   0x18, 0x00, 0x00, 0x00, 0xd0, 0x07, 0x00, 0x00, 0x00, 0x00, 0x00, 0x00, 0x02, 0x00, 0x00, 0x00,
   0x15, 0x01, 0x01, 0x00, 0x00, 0x00, 0x00, 0x00, 0xb7, 0x00, 0x00, 0x00, 0x00, 0x00, 0x00, 0x00,
   0x95, 0x00, 0x00, 0x00, 0x00, 0x00, 0x00, 0x00]

def saveListing : List Inst :=
  [load .w 3 1 4, load .w 2 1 0, aluImm .lsh 2 0x20, aluImm .arsh 2 0x20, aluImm .lsh 3 0x20,
   aluImm .arsh 3 0x20, aluImm .mov 1 0, callInst 3, aluImm .mov 0 0, exitInst]

def checkListing : List Inst :=
  [load .w 2 1 0, aluImm .lsh 2 0x20, aluImm .arsh 2 0x20, aluImm .mov 1 0, callInst 4,
   aluReg .mov 1 0, aluImm .lsh 1 0x20, aluImm .rsh 1 0x20, loadWide 0 0x7d0, wideHigh 2,
   branchImm .jeq 1 0 1, aluImm .mov 0 0, exitInst]

theorem disassemble_save : disassemble freertosCve16528Save = saveListing := rfl

theorem disassemble_check : disassemble freertosCve16528Check = checkListing := rfl

section

variable {dval ctx : BitVec 32} {c : Call} {d : Data} {reg : BitVec 4 → BitVec 64} {mem : Mem}

variable {α : Type} {f : Data → α} {is : List Inst}

theorem load64_storeLE (mem : Mem) (a : BitVec 32) (v : BitVec 64) :
    load64 (storeLE mem a 8 v.toNat) a = v := by
  have hv : v.toNat < 256 ^ 8 := v.isLt
  rw [load64, loadLE_storeLE mem a (by decide), Nat.mod_eq_of_lt hv, BitVec.ofNat_toNat,
    BitVec.setWidth_eq]

theorem tmpMapSaveVal_apply (dval : BitVec 32) (found : Mem → BitVec 64)
    (mp key val x y : BitVec 64) (mem : Mem) :
    tmpMapSaveVal dval found mp key val x y mem =
      (found mem, storeLE mem dval 8 val.toNat) := rfl

theorem tmpMapGetVal_apply (dval : BitVec 32) (mp key x y z : BitVec 64) (mem : Mem) :
    tmpMapGetVal dval mp key x y z mem = (load64 mem dval, mem) := rfl

theorem evalForward_mapSet {found : Mem → BitVec 64}
    (hset : c.vm.extFuncs 3 = some (tmpMapSaveVal dval found)) :
    evalForward c.withoutChecks f (callInst 3#32 :: is) 0 d =
      evalForward c.withoutChecks f is 0
        (Data.setReg { d with mem := storeLE d.mem dval 8 (d.reg 3).toNat } 0 (found d.mem)) := by
  have hcall : c.withoutChecks.vm.extFuncs (3#32).toNat = some (tmpMapSaveVal dval found) := hset
  rw [evalForward_call (by decide) hcall, tmpMapSaveVal_apply]

theorem evalForward_mapGet (hget : c.vm.extFuncs 4 = some (tmpMapGetVal dval)) :
    evalForward c.withoutChecks f (callInst 4#32 :: is) 0 d =
      evalForward c.withoutChecks f is 0 (d.setReg 0 (load64 d.mem dval)) := by
  have hcall : c.withoutChecks.vm.extFuncs (4#32).toNat = some (tmpMapGetVal dval) := hget
  rw [evalForward_call (by decide) hcall, tmpMapGetVal_apply]

theorem save_ends (hc : DefaultHelpers dval c) (h : d.reg 1#4 = ctx.setWidth 64) :
    evalForward c.withoutChecks (fun d => (d.reg 0, d.mem)) saveListing 0 d =
      some (saveXstatus dval d.mem ctx) := by
  obtain ⟨found, hset⟩ := hc.mapSet
  simp [saveListing, alu64, h, ofNat_loadLE_word, setWidth_add_setWidth, evalForward_mapSet hset,
    saveXstatus, setReturn, stackContextAt]

theorem check_ends (hc : DefaultHelpers dval c) (h : d.reg 1#4 = ctx.setWidth 64) :
    evalForward c.withoutChecks (fun d => (d.reg 0, d.mem)) checkListing 0 d =
      some (filterCloseFailed dval d.mem, d.mem) := by
  have hzero (x : BitVec 32) : x.setWidth 64 = 0#64 ↔ x = 0#32 := by bv_omega
  simp [checkListing, alu64, h, ofNat_loadLE_word, evalForward_mapGet hc.mapGet,
    filterCloseFailed, setReturn, jmpTaken, hzero]
  split <;> rfl

/-- The code of a program is not where the helpers keep their word. -/
def ApartFrom (dval base : BitVec 32) (code : List (BitVec 8)) : Prop :=
  ∀ k < code.length, ¬InSpan dval 8 (base + BitVec.ofNat 32 k)

/-- The first program writes the word of the helpers and nothing else. -/
theorem save_keeps {base : BitVec 32} (hhelp : DefaultHelpers dval c)
    (hapart : ApartFrom dval base freertosCve16528Save) (reg : BitVec 4 → BitVec 64) :
    KeepsCode [3] saveListing (InSpan dval 8) [] base freertosCve16528Save c reg := by
  obtain ⟨found, hset⟩ := hhelp.mapSet
  have hwrites : ∀ x y z p q m a, ¬InSpan dval 8 a →
      (tmpMapSaveVal dval found x y z p q m).2 a = m a := fun _ _ _ _ _ _ _ ha => if_neg ha
  exact keepsCode_of_call ⟨disassemble_save, rfl⟩ hapart (by decide +kernel) (by decide) hset
    hwrites (by decide +kernel) reg

/-- The second changes nothing. -/
theorem check_keeps {base : BitVec 32} (hhelp : DefaultHelpers dval c)
    (reg : BitVec 4 → BitVec 64) :
    KeepsCode [4] checkListing (fun _ => False) [] base freertosCve16528Check c reg := by
  have hreads : ∀ x y z p q m a, ¬False → (tmpMapGetVal dval x y z p q m).2 a = m a :=
    fun _ _ _ _ _ _ _ _ => rfl
  exact keepsCode_of_call ⟨disassemble_check, rfl⟩ (fun _ _ => id) (by decide +kernel) (by decide)
    hhelp.mapGet hreads (by decide +kernel) reg

section

variable {rest : List (BitVec 8)} {base : BitVec 32}

theorem save_exec (hload : Loaded (freertosCve16528Save ++ rest) base c.vm mem)
    (hcheck : c.vm.boundsCheckEnabled = false) (hhelp : DefaultHelpers dval c)
    (hapart : ApartFrom dval base freertosCve16528Save) :
    ebpfVmExecMem c reg mem =
      .stop (.returned .exit (saveXstatus dval mem c.mem).1, (saveXstatus dval mem c.mem).2) :=
  (save_keeps hhelp hapart reg).execMem_of_evalForward hload hcheck (by decide)
    (save_ends ⟨hhelp.mapSet, hhelp.mapGet⟩ rfl)

theorem check_exec (hload : Loaded (freertosCve16528Check ++ rest) base c.vm mem)
    (hcheck : c.vm.boundsCheckEnabled = false) (hhelp : DefaultHelpers dval c) :
    ebpfVmExecMem c reg mem = .stop (.returned .exit (filterCloseFailed dval mem), mem) :=
  (check_keeps hhelp reg).execMem_of_evalForward hload hcheck (by decide)
    (check_ends ⟨hhelp.mapSet, hhelp.mapGet⟩ rfl)

end

end

/-! ### Runs of the two programs -/

/-- What happens: the status of a connection is saved, the filter is asked about
a connection and ends like this, or anything else. -/
inductive SocketEvent
  | save (key xStatus : BitVec 32)
  | check (key : BitVec 32) (outcome : Outcome)
  | elsewhere
  deriving DecidableEq

/-- An event, and what it does to memory. The two programs may have anything
behind them, and start with any registers; the first is not where its helper
writes. -/
inductive SocketStep (dval : BitVec 32) (mem : Mem) : SocketEvent → Mem → Prop
  | save {c : Call} {rest : List (BitVec 8)} {base : BitVec 32} {reg : BitVec 4 → BitVec 64}
      {o : Outcome} {mem' : Mem} (hload : Loaded (freertosCve16528Save ++ rest) base c.vm mem)
      (hcheck : c.vm.boundsCheckEnabled = false) (hhelp : DefaultHelpers dval c)
      (hapart : ApartFrom dval base freertosCve16528Save)
      (hexec : ebpfVmExecMem c reg mem = .stop (o, mem')) :
      SocketStep dval mem (.save (stackContextAt mem c.mem).r0 (stackContextAt mem c.mem).r1) mem'
  | check {c : Call} {rest : List (BitVec 8)} {base : BitVec 32} {reg : BitVec 4 → BitVec 64}
      {o : Outcome} {mem' : Mem} (hload : Loaded (freertosCve16528Check ++ rest) base c.vm mem)
      (hcheck : c.vm.boundsCheckEnabled = false) (hhelp : DefaultHelpers dval c)
      (hexec : ebpfVmExecMem c reg mem = .stop (o, mem')) :
      SocketStep dval mem (.check (stackContextAt mem c.mem).r0 o) mem'
  | elsewhere {mem' : Mem} (hword : load64 mem' dval = load64 mem dval) :
      SocketStep dval mem .elsewhere mem'

/-- The events since the start, the last one first. `dval` starts as zero. -/
inductive SocketRun (dval : BitVec 32) : List SocketEvent → Mem → Prop
  | start {mem : Mem} (hzero : load64 mem dval = 0) : SocketRun dval [] mem
  | next {es : List SocketEvent} {e : SocketEvent} {mem mem' : Mem}
      (hrun : SocketRun dval es mem) (hstep : SocketStep dval mem e mem') :
      SocketRun dval (e :: es) mem'

/-- The status that was saved last. -/
def lastStatus : List SocketEvent → BitVec 32
  | [] => 0
  | .save _ xStatus :: _ => xStatus
  | _ :: es => lastStatus es

/-- The status of this connection that was saved last: what a map holds. -/
def statusOf (key : BitVec 32) : List SocketEvent → BitVec 32
  | [] => 0
  | .save k xStatus :: es => if k = key then xStatus else statusOf key es
  | _ :: es => statusOf key es

/-- The filter returns, and the call is redirected exactly if the status is zero. -/
def Answers (status : BitVec 32) (o : Outcome) : Prop :=
  ∃ ret, o = .returned .exit ret ∧
    runPatchHere ret = if status = 0 then .redirect 2000 else .pass

/-- Every time the filter was asked it answered for the status that this gives for
the connection and the events before. -/
def Answered (status : BitVec 32 → List SocketEvent → BitVec 32) (es : List SocketEvent) : Prop :=
  ∀ key o before, .check key o :: before <:+ es → Answers (status key before) o

theorem answers_filter (dval : BitVec 32) (mem : Mem) :
    Answers ((load64 mem dval).setWidth 32) (.returned .exit (filterCloseFailed dval mem)) := by
  refine ⟨_, rfl, ?_⟩
  by_cases hzero : (load64 mem dval).setWidth 32 = 0#32
  · have hhere : runPatchHere (setReturn 2 2000) = .redirect 2000 := by decide
    rw [filterCloseFailed, if_pos hzero, hhere]
    exact (if_pos hzero).symm
  · have hhere : runPatchHere (setReturn 0 0) = .pass := by decide
    rw [filterCloseFailed, if_neg hzero, hhere]
    exact (if_neg hzero).symm

theorem answers_iff {status status' : BitVec 32} {o : Outcome} (h : Answers status o) :
    Answers status' o ↔ (status = 0 ↔ status' = 0) := by
  obtain ⟨ret, rfl, hret⟩ := h
  constructor
  · rintro ⟨ret', hret', hhere⟩
    cases hret'
    rw [hret] at hhere
    by_cases hzero : status = 0
    · rw [if_pos hzero] at hhere
      refine iff_of_true hzero (by_contra fun hne => ?_)
      rw [if_neg hne] at hhere
      cases hhere
    · rw [if_neg hzero] at hhere
      refine iff_of_false hzero fun heq => ?_
      rw [if_pos heq] at hhere
      cases hhere
  · intro hiff
    refine ⟨ret, rfl, ?_⟩
    simpa only [hiff] using hret

/-- The word holds the status saved last. -/
theorem SocketStep.word {dval : BitVec 32} {es : List SocketEvent} {e : SocketEvent}
    {mem mem' : Mem} (hstep : SocketStep dval mem e mem')
    (hword : (load64 mem dval).setWidth 32 = lastStatus es) :
    (load64 mem' dval).setWidth 32 = lastStatus (e :: es) := by
  cases hstep with
  | save hload hcheck hhelp hapart hexec =>
      rw [save_exec hload hcheck hhelp hapart] at hexec
      cases hexec
      rw [saveXstatus, load64_storeLE]
      exact setWidth_signExtend_self _ (by decide)
  | check hload hcheck hhelp hexec =>
      rw [check_exec hload hcheck hhelp] at hexec
      cases hexec
      exact hword
  | elsewhere hsame =>
      rw [hsame]
      exact hword

theorem SocketRun.word {dval : BitVec 32} {es : List SocketEvent} {mem : Mem}
    (h : SocketRun dval es mem) : (load64 mem dval).setWidth 32 = lastStatus es := by
  induction h with
  | start hzero =>
      rw [hzero]
      rfl
  | next _ hstep ih => exact hstep.word ih

theorem SocketRun.answered {dval : BitVec 32} {es : List SocketEvent} {mem : Mem}
    (h : SocketRun dval es mem) : Answered (fun _ => lastStatus) es := by
  induction h with
  | start _ =>
      intro key o before hsuffix
      cases List.suffix_nil.mp hsuffix
  | @next es e mem mem' hrun hstep ih =>
      intro key o before hsuffix
      rcases List.suffix_cons_iff.mp hsuffix with heq | hbefore
      · cases heq
        cases hstep with
        | check hload hcheck hhelp hexec =>
            rw [check_exec hload hcheck hhelp] at hexec
            cases hexec
            have hanswers := answers_filter dval mem
            rwa [hrun.word] at hanswers
      · exact ih key o before hbefore

/-- With one connection, it holds what a map would. -/
theorem statusOf_eq_lastStatus {key : BitVec 32} {es : List SocketEvent}
    (hkey : ∀ k x, .save k x ∈ es → k = key) : statusOf key es = lastStatus es := by
  induction es with
  | nil => rfl
  | cons e es ih =>
      have htail := ih fun k x hmem => hkey k x (List.mem_cons_of_mem _ hmem)
      cases e with
      | save k x => exact if_pos (hkey k x List.mem_cons_self)
      | check k o => exact htail
      | elsewhere => exact htail

/-- In any run the filter answers for the status that was saved last, of whatever
connection; so it answers for the connection it is asked about exactly where the
two statuses are both zero or both not, and always where there is no other. -/
theorem socketRun_answers {dval : BitVec 32} {es : List SocketEvent} {mem : Mem}
    (h : SocketRun dval es mem) :
    Answered (fun _ => lastStatus) es ∧
      (Answered statusOf es ↔
        ∀ key o before, .check key o :: before <:+ es →
          (lastStatus before = 0 ↔ statusOf key before = 0)) ∧
      ∀ key, (∀ k x, .save k x ∈ es → k = key) →
        ∀ o before, .check key o :: before <:+ es → Answers (statusOf key before) o := by
  have hlast := h.answered
  refine ⟨hlast, ?_, ?_⟩
  · refine forall₃_congr fun key o before => forall_congr' fun hsuffix => ?_
    exact answers_iff (hlast key o before hsuffix)
  · intro key hkey o before hsuffix
    have hbefore : before ⊆ es := fun e he => hsuffix.subset (List.mem_cons_of_mem _ he)
    rw [statusOf_eq_lastStatus fun k x hmem => hkey k x (hbefore hmem)]
    exact hlast key o before hsuffix

def mapHelpers (n : ℕ) : Option ExtFunc :=
  if n = 3 then some (tmpMapSaveVal 0 fun _ => 0)
  else if n = 4 then some (tmpMapGetVal 0) else none

def helperCall (base : BitVec 32) (code : List (BitVec 8)) (frame : BitVec 32) : Call :=
  { callOf code with vm := (ebpfVmSetInst mapHelpers base code).ebpfVm, mem := frame }

theorem helperCall_helpers (base : BitVec 32) (code : List (BitVec 8)) (frame : BitVec 32) :
    DefaultHelpers 0 (helperCall base code frame) where
  mapSet := ⟨fun _ => 0, rfl⟩
  mapGet := rfl

def checkBase : BitVec 32 := 0x08005000

/-- The two programs, and frames for the first connection with status one at
`0x100`, and for the second with status zero at `0x200`. -/
def twoFrames : Mem :=
  memcpy (memcpy (fun a => if a = 0x100 ∨ a = 0x104 then 1 else if a = 0x200 then 2 else 0)
    checkBase (freertosCve16528Check ++ [])) codeBase (freertosCve16528Save ++ [])

/-- The first connection is made, the second fails, and the filter is asked about
the first. -/
def twoSockets : List SocketEvent :=
  [.check 1 (.returned .exit (setReturn 2 2000)), .save 2 0, .save 1 1]

theorem ApartFrom.hasAt {dval base : BitVec 32} {code : List (BitVec 8)} {mem : Mem}
    (h : ApartFrom dval base code) (hmem : HasAt (bytesFrom mem base) 0 code) (v : ℕ) :
    HasAt (bytesFrom (storeLE mem dval 8 v) base) 0 code := by
  intro i hi
  rw [← hmem i hi]
  simp only [bytesFrom, Nat.zero_add]
  exact if_neg (h i hi)

structure HoldsBoth (mem : Mem) : Prop where
  save : HasAt (bytesFrom mem codeBase) 0 (freertosCve16528Save ++ [])
  check : HasAt (bytesFrom mem checkBase) 0 (freertosCve16528Check ++ [])

theorem apartFrom_save : ApartFrom 0 codeBase (freertosCve16528Save ++ []) := by
  unfold ApartFrom InSpan
  decide +kernel

theorem apartFrom_check : ApartFrom 0 checkBase (freertosCve16528Check ++ []) := by
  unfold ApartFrom InSpan
  decide +kernel

theorem HoldsBoth.storeLE {mem : Mem} (h : HoldsBoth mem) (v : ℕ) :
    HoldsBoth (storeLE mem 0 8 v) :=
  ⟨apartFrom_save.hasAt h.save v, apartFrom_check.hasAt h.check v⟩

theorem helperCall_saves {mem : Mem} (h : HoldsBoth mem) (frame : BitVec 32) :
    SocketStep 0 mem (.save (stackContextAt mem frame).r0 (stackContextAt mem frame).r1)
      (saveXstatus 0 mem frame).2 := by
  have hhelp := helperCall_helpers codeBase (freertosCve16528Save ++ []) frame
  have hload : Loaded (freertosCve16528Save ++ []) codeBase
      (helperCall codeBase (freertosCve16528Save ++ []) frame).vm mem :=
    .setInst mapHelpers rfl h.save
  have hexec : ebpfVmExecMem _ (fun _ => 7) mem = _ := save_exec hload rfl hhelp apartFrom_save
  exact .save hload rfl hhelp apartFrom_save hexec

theorem helperCall_checks {mem : Mem} (h : HoldsBoth mem) (frame : BitVec 32) :
    SocketStep 0 mem
      (.check (stackContextAt mem frame).r0 (.returned .exit (filterCloseFailed 0 mem))) mem := by
  have hhelp := helperCall_helpers checkBase (freertosCve16528Check ++ []) frame
  have hload : Loaded (freertosCve16528Check ++ []) checkBase
    (helperCall checkBase (freertosCve16528Check ++ []) frame).vm mem :=
      .setInst mapHelpers rfl h.check
  have hexec : ebpfVmExecMem _ (fun _ => 7) mem = _ := check_exec hload rfl hhelp
  exact .check hload rfl hhelp hexec

theorem twoSockets_run : ∃ mem, SocketRun 0 twoSockets mem := by
  have hstart : SocketRun 0 [] twoFrames := .start (by decide +kernel)
  have hboth : HoldsBoth twoFrames :=
    ⟨hasAt_memcpy _ _ (by decide), by unfold HasAt; decide +kernel⟩
  have hfirst := hstart.next (helperCall_saves hboth 0x100)
  have hsecond := hfirst.next (helperCall_saves (hboth.storeLE _) 0x200)
  have hrun := hsecond.next (helperCall_checks ((hboth.storeLE _).storeLE _) 0x100)
  exact ⟨_, hrun⟩

theorem socketRun_mixed :
    Answered (fun _ => lastStatus) twoSockets ∧ ¬Answered statusOf twoSockets := by
  obtain ⟨mem, hrun⟩ := twoSockets_run
  obtain ⟨hlast, hiff, -⟩ := socketRun_answers hrun
  refine ⟨hlast, fun hown => ?_⟩
  have hzero := hiff.mp hown 1 _ _ (List.suffix_refl _)
  revert hzero
  decide

end RapidPatch.Patches
