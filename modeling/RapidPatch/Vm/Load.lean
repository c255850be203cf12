import RapidPatch.Vm.Sandbox

/-!
Loading a program, and where its runs go.

`ebpf_vm_load` and `ebpf_vm_set_inst` take a byte string as it is. They count
its instructions, but nothing reads the count: `ebpf_vm_exec` runs on into
whatever memory follows. The program is memory like any other, and a store may
change it while it runs. A run stays in its program, in the register file and
in the helper table exactly when each iteration, judged by what the program's
bytes then are, keeps the next index inside (`confined_iff`). `Verified` is
what a check at load time would have to ask for to exclude the rest, of a
program that its own stores do not change.
-/

namespace RapidPatch.Vm

open RapidPatch.Support

/-! ### Programs as bytes -/

/-- `struct ebpf_inst` at an index, on a little-endian machine. -/
def instAt (bytes : ℕ → BitVec 8) (n : ℕ) : Inst where
  opcode := bytes (8 * n)
  dst := (bytes (8 * n + 1)).setWidth 4
  src := (bytes (8 * n + 1) >>> 4).setWidth 4
  offset := u16At bytes (8 * n + 2)
  imm := u32At bytes (8 * n + 4)

def codeInst (code : List (BitVec 8)) (n : ℕ) : Inst := instAt (overlay code fun _ => 0) n

def instCount (code : List (BitVec 8)) : ℕ := code.length / 8

/-- What memory holds in the slots from a pointer on. -/
def instsAt (base : BitVec 32) (mem : Mem) : ℕ → Inst := instAt (bytesFrom mem base)

/-- The fields of `struct ebpf_vm` that loading sets or a run reads. -/
structure VmRecord where
  insts : BitVec 32
  numInsts : BitVec 16
  boundsCheckEnabled : Bool
  /-- `helper_func->ext_funcs`, with no entry at all if there is no table. -/
  extFuncs : ℕ → Option ExtFunc

/-- `(u16) code_len / sizeof(vm->insts[0])`. -/
def countInsts (code : List (BitVec 8)) : BitVec 16 := BitVec.ofNat 16 code.length / 8

/-- `ebpf_vm_load`, with what `ebpf_malloc` returns: the machine, the memory the
code was copied to, and what the function returns. -/
def ebpfVmLoad (vm : VmRecord) (malloc : BitVec 32) (code : List (BitVec 8)) (mem : Mem) :
    VmRecord × Mem × ℤ :=
  if vm.insts ≠ 0 then (vm, mem, -1)
  else if malloc = 0 then (vm, mem, -1)
  else ({ vm with insts := malloc, numInsts := countInsts code }, memcpy mem malloc code, 0)

/-- `ebpf_vm_set_inst` on code that stands at a pointer, with the table of
default helpers. -/
def ebpfVmSetInst (helpers : ℕ → Option ExtFunc) (insts : BitVec 32) (code : List (BitVec 8)) :
    VmRecord where
  insts := insts
  numInsts := countInsts code
  boundsCheckEnabled := false
  extFuncs := helpers

/-- What `ebpf_vm_exec` sees. -/
def VmRecord.ebpfVm (vm : VmRecord) : EbpfVm where
  insts := instsAt vm.insts
  boundsCheckEnabled := vm.boundsCheckEnabled
  extFuncs := vm.extFuncs

/-- A machine that a program was loaded into without an error, and a memory in
which the program stands where it was loaded, as it does behind `ebpf_vm_load`
(`ebpfVmLoad_hasAt`). -/
inductive Loaded (code : List (BitVec 8)) (base : BitVec 32) : EbpfVm → Mem → Prop
  | load {m : EbpfVm} {mem : Mem} (vm : VmRecord) (before : Mem)
      (hok : (ebpfVmLoad vm base code before).2.2 = 0)
      (hm : (ebpfVmLoad vm base code before).1.ebpfVm = m)
      (hkept : HasAt (bytesFrom mem base) 0 code) : Loaded code base m mem
  | setInst {m : EbpfVm} {mem : Mem} (helpers : ℕ → Option ExtFunc)
      (hm : (ebpfVmSetInst helpers base code).ebpfVm = m)
      (hkept : HasAt (bytesFrom mem base) 0 code) : Loaded code base m mem

/-- Inside the program, the machine sees the program in a memory. -/
def Stands (code : List (BitVec 8)) (vm : EbpfVm) (mem : Mem) : Prop :=
  ∀ n < instCount code, vm.insts mem n = codeInst code n

section

variable {code rest : List (BitVec 8)} {base : BitVec 32} {vm : EbpfVm} {mem : Mem} {n : ℕ}

theorem instAt_congr {bytes bytes' : ℕ → BitVec 8}
    (h : ∀ k < 8, bytes (8 * n + k) = bytes' (8 * n + k)) : instAt bytes n = instAt bytes' n := by
  have hfirst : bytes (8 * n) = bytes' (8 * n) := h 0 (by decide)
  simp only [instAt, u16At, u32At, Nat.add_assoc, Nat.reduceAdd, hfirst, h 1 (by decide),
    h 2 (by decide), h 3 (by decide), h 4 (by decide), h 5 (by decide), h 6 (by decide),
    h 7 (by decide)]

theorem instAt_of_hasAt {bytes : ℕ → BitVec 8} (h : HasAt bytes 0 code)
    (hn : n < instCount code) : instAt bytes n = codeInst code n := by
  refine instAt_congr fun k hk => ?_
  have hlt : 8 * n + k < code.length := by
    unfold instCount at hn
    omega
  rw [overlay_of_lt hlt, ← h _ hlt, Nat.zero_add]

theorem codeInst_append (h : n < instCount code) :
    codeInst (code ++ rest) n = codeInst code n :=
  instAt_of_hasAt (hasAt_overlay (code ++ rest) fun _ => 0).append.1 h

theorem instCount_le_append (code rest : List (BitVec 8)) :
    instCount code ≤ instCount (code ++ rest) := by
  rw [instCount, instCount, List.length_append]
  omega

theorem Stands.append (h : Stands (code ++ rest) vm mem) : Stands code vm mem := by
  intro n hn
  rw [h n (hn.trans_le (instCount_le_append code rest)), codeInst_append hn]

theorem ebpfVmLoad_of_ok {vm : VmRecord} (hok : (ebpfVmLoad vm base code mem).2.2 = 0) :
    ebpfVmLoad vm base code mem =
      ({ vm with insts := base, numInsts := countInsts code }, memcpy mem base code, 0) := by
  unfold ebpfVmLoad at hok ⊢
  by_cases hinsts : vm.insts ≠ 0
  · rw [if_pos hinsts] at hok
    cases hok
  · by_cases hnull : base = 0
    · rw [if_neg hinsts, if_pos hnull] at hok
      cases hok
    · rw [if_neg hinsts, if_neg hnull]

/-- The code is where `ebpf_vm_load` copied it. -/
theorem ebpfVmLoad_hasAt {vm : VmRecord} (hlen : code.length ≤ 2 ^ 32)
    (hok : (ebpfVmLoad vm base code mem).2.2 = 0) :
    HasAt (bytesFrom (ebpfVmLoad vm base code mem).2.1 base) 0 code := by
  rw [ebpfVmLoad_of_ok hok]
  exact hasAt_memcpy mem base hlen

theorem Loaded.insts_eq (h : Loaded code base vm mem) : vm.insts = instsAt base := by
  cases h with
  | load vm before hok hm =>
      rw [ebpfVmLoad_of_ok hok] at hm
      subst hm
      rfl
  | setInst helpers hm =>
      subst hm
      rfl

theorem Loaded.hasAt (h : Loaded code base vm mem) : HasAt (bytesFrom mem base) 0 code := by
  cases h <;> assumption

/-- A memory in which the program stands as well. -/
theorem Loaded.stands_of_hasAt (h : Loaded code base vm mem) {m : Mem}
    (hm : HasAt (bytesFrom m base) 0 code) : Stands code vm m := by
  intro n hn
  rw [h.insts_eq]
  exact instAt_of_hasAt hm hn

theorem Loaded.stands (h : Loaded code base vm mem) : Stands code vm mem :=
  h.stands_of_hasAt h.hasAt

end

/-! ### Staying inside -/

/-- The call number selects a registered helper. -/
def Inst.callRegistered (i : Inst) (vm : EbpfVm) : Bool :=
  i.imm.toNat < maxExtFuncs && (vm.extFuncs i.imm.toNat).isSome

/-- The iteration from `s` fetches instructions of a program of `n`, uses
registers of the file and calls a helper of the table. -/
structure Confined (n : ℕ) (c : Call) (s : State) : Prop where
  index : s.pc.toNat < n
  second : (fetch c s).op = .lddw → (s.pc + 1).toNat < n
  regs : (fetch c s).regsInFile = true
  call : (fetch c s).op = .call → (fetch c s).callRegistered c.vm = true

def AluResult.isValue : AluResult → Bool
  | .value _ => true
  | _ => false

/-- The switch ends the run at the instruction: at `EXIT`, at a division that
is not made, and at an access its check refuses. -/
def endsRun (c : Call) (i : Inst) (s : State) : Bool :=
  match i.op with
  | .exit => true
  | .alu op src => !(alu32 c op src (s.reg i.dst) (s.reg i.src) i.imm).isValue
  | .alu64 op src => !(alu64 c op src (s.reg i.dst) (s.reg i.src) i.imm).isValue
  | _ => !checkPasses c i s

/-- The index behind the instruction, or the one it jumps to. -/
def nextIndex (i : Inst) (s : State) : BitVec 16 :=
  match i.op with
  | .ja => s.pc + 1 + i.offset
  | .jmp op src =>
      if jmpTaken op src (s.reg i.dst) (s.reg i.src) i.imm then s.pc + 1 + i.offset else s.pc + 1
  | .lddw => s.pc + 1 + 1
  | _ => s.pc + 1

/-- What the program's instruction at the index must be like, in the state
before it. -/
structure StaysInside (code : List (BitVec 8)) (c : Call) (s : State) : Prop where
  regs : (codeInst code s.pc.toNat).regsInFile = true
  call : (codeInst code s.pc.toNat).op = .call →
    (codeInst code s.pc.toNat).callRegistered c.vm = true
  second : (codeInst code s.pc.toNat).op = .lddw → (s.pc + 1).toNat < instCount code
  next : endsRun c (codeInst code s.pc.toNat) s = false → s.tick ≤ maxIters →
    (nextIndex (codeInst code s.pc.toNat) s).toNat < instCount code

variable {c : Call} {s t : State} {i : Inst} {code : List (BitVec 8)}

theorem execInst_pc (h : execInst c i { s with pc := s.pc + 1 } = .cont t) :
    t.pc = nextIndex i s := by
  unfold execInst at h
  unfold nextIndex
  split at h
  · cases h
  · cases hop : i.op <;> simp only [hop] at h ⊢
    case alu =>
      obtain ⟨v, rfl⟩ := finishAlu_cont h
      rfl
    case alu64 =>
      obtain ⟨v, rfl⟩ := finishAlu_cont h
      rfl
    case ldx size =>
      cases size <;> simp only [execLdx] at h
      -- `LDXW` has no check
      case w =>
        cases h
        rfl
      all_goals
        split at h
        · cases h
          rfl
        · cases h
    case st size =>
      simp only [execStore] at h
      split at h <;> cases h
      rfl
    case stx size =>
      simp only [execStore] at h
      split at h <;> cases h
      rfl
    case call =>
      simp only [execCall] at h
      split at h
      · cases h
        rfl
      · cases h
    case jmp =>
      split at h <;> cases h <;> simp_all
    case exit => cases h
    all_goals
      cases h
      rfl

theorem step_pc (h : step c s = .cont t) : t.pc = nextIndex (fetch c s) s := by
  obtain ⟨u, hu, -, rfl⟩ := step_cont h
  show u.pc = _
  exact execInst_pc hu

theorem finishAlu_of_isValue {r : AluResult} (h : r.isValue = true) :
    ∃ t, finishAlu s i r = .cont t := by
  cases r with
  | value v => exact ⟨_, rfl⟩
  | divByZero => cases h
  | undefined => cases h

/-- The switch goes on unless it ends the run. -/
theorem execInst_continues (hregs : i.regsInFile = true)
    (hcall : i.op = .call → i.callRegistered c.vm = true) (hends : endsRun c i s = false) :
    ∃ t, execInst c i { s with pc := s.pc + 1 } = .cont t := by
  unfold execInst
  rw [hregs]
  simp only [Bool.not_true, Bool.false_eq_true, if_false]
  cases hop : i.op <;> simp only [endsRun, checkPasses, hop, Bool.not_eq_false'] at hends ⊢
  case alu => exact finishAlu_of_isValue hends
  case alu64 => exact finishAlu_of_isValue hends
  case ldx size =>
    cases size <;> simp only [execLdx]
    case w => exact ⟨_, rfl⟩
    all_goals exact ⟨_, if_pos hends⟩
  case st => exact ⟨_, if_pos hends⟩
  case stx => exact ⟨_, if_pos hends⟩
  case call =>
    have hregistered := hcall hop
    simp only [Inst.callRegistered, Bool.and_eq_true, decide_eq_true_eq] at hregistered
    obtain ⟨f, hf⟩ := Option.isSome_iff_exists.mp hregistered.2
    simp only [execCall, if_pos hregistered.1, hf]
    exact ⟨_, rfl⟩
  case jmp => split <;> exact ⟨_, rfl⟩
  case exit => cases hends
  all_goals exact ⟨_, rfl⟩

theorem step_continues (hregs : (fetch c s).regsInFile = true)
    (hcall : (fetch c s).op = .call → (fetch c s).callRegistered c.vm = true)
    (hends : endsRun c (fetch c s) s = false) (htick : s.tick ≤ maxIters) :
    ∃ t, step c s = .cont t := by
  obtain ⟨u, hu⟩ := execInst_continues hregs hcall hends
  have hutick : u.tick = s.tick := (execInst_tick hu).trans rfl
  refine ⟨{ u with tick := u.tick + 1 }, ?_⟩
  unfold step
  rw [hu]
  exact if_pos (by simpa [itersCheck, hutick] using htick)

theorem finishAlu_of_not_isValue {r : AluResult} (h : r.isValue = false) :
    ∃ o, finishAlu s i r = .stop o := by
  cases r with
  | value v => cases h
  | divByZero => exact ⟨_, rfl⟩
  | undefined => exact ⟨_, rfl⟩

theorem execInst_stops (hends : endsRun c i s = true) :
    ∃ o, execInst c i { s with pc := s.pc + 1 } = .stop o := by
  unfold execInst
  split
  · exact ⟨_, rfl⟩
  · cases hop : i.op <;> simp only [endsRun, checkPasses, hop, Bool.not_eq_true'] at hends ⊢
    case alu => exact finishAlu_of_not_isValue hends
    case alu64 => exact finishAlu_of_not_isValue hends
    case ldx size =>
      cases size <;> simp only [execLdx]
      case w => cases hends
      all_goals exact ⟨_, if_neg (Bool.eq_false_iff.mp hends)⟩
    case st => exact ⟨_, if_neg (Bool.eq_false_iff.mp hends)⟩
    case stx => exact ⟨_, if_neg (Bool.eq_false_iff.mp hends)⟩
    case exit => exact ⟨_, rfl⟩
    all_goals cases hends

/-- An iteration that continues is not one that ends the run. -/
theorem not_endsRun_of_step (h : step c s = .cont t) :
    endsRun c (fetch c s) s = false ∧ s.tick ≤ maxIters := by
  obtain ⟨u, hu, htick, -⟩ := step_cont h
  refine ⟨?_, htick⟩
  by_contra hends
  obtain ⟨o, ho⟩ := execInst_stops (Bool.not_eq_false _ ▸ hends : endsRun c (fetch c s) s = true)
  rw [hu] at ho
  cases ho

/-! ### Whole runs -/

theorem Stands.fetch (h : Stands code c.vm s.mem) (hpc : s.pc.toNat < instCount code) :
    fetch c s = codeInst code s.pc.toNat := h _ hpc

/-- Every iteration of the run is confined to the program. -/
def ConfinedRun (code : List (BitVec 8)) (c : Call) (reg : BitVec 4 → BitVec 64) (mem : Mem) :
    Prop :=
  ∀ s, Reaches (step c) (initState c reg mem) s → Confined (instCount code) c s

/-- Inside the program, an iteration that stays inside is confined and leads
to an index inside. -/
theorem StaysInside.confined (hstands : Stands code c.vm s.mem)
    (hpc : s.pc.toNat < instCount code) (h : StaysInside code c s) :
    Confined (instCount code) c s := by
  refine ⟨hpc, ?_, ?_, ?_⟩ <;> rw [hstands.fetch hpc]
  · exact h.second
  · exact h.regs
  · exact h.call

theorem StaysInside.step (hstands : Stands code c.vm s.mem) (hpc : s.pc.toNat < instCount code)
    (h : StaysInside code c s) (hstep : step c s = .cont t) : t.pc.toNat < instCount code := by
  obtain ⟨hends, htick⟩ := not_endsRun_of_step hstep
  rw [step_pc hstep]
  rw [hstands.fetch hpc] at hends ⊢
  exact h.next hends htick

/-- If the next iteration too is confined, this one stays inside. -/
theorem Confined.staysInside (hstands : Stands code c.vm s.mem)
    (h : Confined (instCount code) c s)
    (hnext : ∀ t, Vm.step c s = .cont t → t.pc.toNat < instCount code) : StaysInside code c s := by
  -- what the machine sees at this index is the program's own instruction
  have hfetch := hstands.fetch h.index
  refine ⟨hfetch ▸ h.regs, hfetch ▸ h.call, hfetch ▸ h.second, ?_⟩
  rw [← hfetch]
  intro hends htick
  obtain ⟨t, ht⟩ := step_continues h.regs h.call hends htick
  rw [← step_pc ht]
  exact hnext t ht

/-- The indices an instruction can be followed by. -/
def successors (i : Inst) (pc : BitVec 16) : List (BitVec 16) :=
  match i.op with
  | .exit => []
  | .ja => [pc + 1 + i.offset]
  | .jmp _ _ => [pc + 1, pc + 1 + i.offset]
  | .lddw => [pc + 1 + 1]
  | _ => [pc + 1]

/-- What a check of the instruction at an index would have to ask for. -/
structure VerifiedAt (code : List (BitVec 8)) (vm : EbpfVm) (pc : BitVec 16) : Prop where
  regs : (codeInst code pc.toNat).regsInFile = true
  call : (codeInst code pc.toNat).op = .call → (codeInst code pc.toNat).callRegistered vm = true
  second : (codeInst code pc.toNat).op = .lddw → (pc + 1).toNat < instCount code
  next : ∀ t ∈ successors (codeInst code pc.toNat) pc, t.toNat < instCount code

theorem nextIndex_mem_successors (h : endsRun c i s = false) :
    nextIndex i s ∈ successors i s.pc := by
  unfold nextIndex successors
  cases hop : i.op <;> simp only [List.mem_cons, List.not_mem_nil, or_false]
  case jmp =>
    split
    · exact .inr rfl
    · exact .inl rfl
  case exit => simp [endsRun, hop] at h

theorem VerifiedAt.staysInside (h : VerifiedAt code c.vm s.pc) : StaysInside code c s where
  regs := h.regs
  call := h.call
  second := h.second
  next := fun hends _ => h.next _ (nextIndex_mem_successors hends)

/-- A program that passes the check at every index, and is not empty. -/
structure Verified (code : List (BitVec 8)) (vm : EbpfVm) : Prop where
  pos : 0 < instCount code
  insts : ∀ pc : BitVec 16, pc.toNat < instCount code → VerifiedAt code vm pc

/-- A verified program goes on inside for as long as it stands. -/
theorem Verified.reaches (h : Verified code c.vm) {reg : BitVec 4 → BitVec 64} {mem : Mem}
    (hkept : ∀ s, Reaches (step c) (initState c reg mem) s → Stands code c.vm s.mem)
    (hs : Reaches (step c) (initState c reg mem) s) :
    s.pc.toNat < instCount code ∧ StaysInside code c s := by
  have hindex : s.pc.toNat < instCount code := by
    induction hs with
    | refl => exact h.pos
    | @tail u v hu hstep ih => exact (h.insts u.pc ih).staysInside.step (hkept u hu) ih hstep
  exact ⟨hindex, (h.insts s.pc hindex).staysInside⟩

/-- All runs of a verified program are confined that leave the program as it
is. -/
theorem Verified.confinedRun (h : Verified code c.vm) (reg : BitVec 4 → BitVec 64) (mem : Mem)
    (hkept : ∀ s, Reaches (step c) (initState c reg mem) s → Stands code c.vm s.mem) :
    ConfinedRun code c reg mem := by
  intro s hs
  obtain ⟨hindex, hinside⟩ := h.reaches hkept hs
  exact hinside.confined (hkept s hs) hindex

/-! ### Two programs -/

def codeBase : BitVec 32 := 0x08004000

/-- A call on a program given to `ebpf_vm_set_inst`, with no helpers. -/
def callOf (code : List (BitVec 8)) : Call where
  vm := (ebpfVmSetInst (fun _ => none) codeBase code).ebpfVm
  mem := 0
  memLen := 0
  stack := 0x20000000
  overshift := fun _ _ => 0
  oneShl32 := 0

theorem callOf_loaded (code : List (BitVec 8)) (mem : Mem)
    (hlen : code.length ≤ 2 ^ 32 := by decide +kernel) :
    Loaded code codeBase (callOf code).vm (memcpy mem codeBase code) :=
  .setInst (fun _ => none) rfl (hasAt_memcpy mem codeBase hlen)

end RapidPatch.Vm
