import RapidPatch.Support.Lockstep
import RapidPatch.Vm.Load

/-!
What the result of a run depends on.

All registers but r1 and r10 are uninitialised when a run starts, and the
memory is that of the whole device. `Initialised` is what a program must be
like to read no register before it has written it: at each index some
registers are known, the instruction there reads known ones only, and what is
known behind it was known before or is written by it. `AccessesWithin` keeps
the accesses of a run to a set of addresses. Then the registers the run
starts with and the bytes outside the set do not matter
(`ebpfVmExec_determined`): two runs that agree on the rest go through the
same indices with the same known registers, and end alike.
-/

namespace RapidPatch.Vm

open RapidPatch.Support

variable {c : Call} {s t : State} {i : Inst} {known : ℕ → List (BitVec 4)}
  {A : BitVec 32 → Prop} {m : Mem}

/-! ### What an instruction reads and writes -/

def Inst.reads (i : Inst) : List (BitVec 4) :=
  match i.op with
  | .alu .mov .imm | .alu64 .mov .imm | .lddw | .ja | .nop | .unknown => []
  | .alu .mov .reg | .alu64 .mov .reg | .ldx _ => [i.src]
  | .alu _ .imm | .alu64 _ .imm | .jmp _ .imm | .neg | .neg64 | .le | .be => [i.dst]
  | .alu _ .reg | .alu64 _ .reg | .jmp _ .reg | .st _ | .stx _ => [i.dst, i.src]
  | .call => [1, 2, 3, 4, 5]
  | .exit => [0]

def Inst.writes (i : Inst) : List (BitVec 4) :=
  match i.op with
  | .alu _ _ | .alu64 _ _ | .neg | .neg64 | .le | .be | .ldx _ | .lddw => [i.dst]
  | .call => [0]
  | _ => []

/-- A helper looks at the bytes of a set and changes no others. -/
structure HelperWithin (A : BitVec 32 → Prop) (f : ExtFunc) : Prop where
  alike : ∀ a b d e g m m', (∀ x, A x → m' x = m x) →
    (f a b d e g m').1 = (f a b d e g m).1 ∧ ∀ x, A x → (f a b d e g m').2 x = (f a b d e g m).2 x
  rest : ∀ a b d e g m x, ¬A x → (f a b d e g m).2 x = m x

/-- The helper an instruction calls, if it calls one, is such. -/
def CallsWithin (A : BitVec 32 → Prop) (vm : EbpfVm) (i : Inst) : Prop :=
  i.op = .call → ∀ f, vm.extFuncs i.imm.toNat = some f → HelperWithin A f

/-- The access of an iteration is in a set. -/
def AccessesWithin (A : BitVec 32 → Prop) (c : Call) (s : State) : Prop :=
  ∀ a size, memAccess (fetch c s) s = some (a, size) →
    ∀ j < size.bytes, A (a + BitVec.ofNat 32 j)

/-- Two states agree on some registers and the bytes of a set; the other bytes
of the second are those of `m`. -/
structure SameOn (regs : List (BitVec 4)) (A : BitVec 32 → Prop) (m : Mem) (s t : State) :
    Prop where
  pc : t.pc = s.pc
  tick : t.tick = s.tick
  regs : ∀ r ∈ regs, t.reg r = s.reg r
  mem : ∀ a, A a → t.mem a = s.mem a
  rest : ∀ a, ¬A a → t.mem a = m a

variable {regs regs' : List (BitVec 4)}

theorem SameOn.mono (h : SameOn regs A m s t) (hsub : ∀ r ∈ regs', r ∈ regs) :
    SameOn regs' A m s t :=
  ⟨h.pc, h.tick, fun r hr => h.regs r (hsub r hr), h.mem, h.rest⟩

theorem SameOn.setPc (h : SameOn regs A m s t) (pc : BitVec 16) :
    SameOn regs A m { s with pc := pc } { t with pc := pc } :=
  ⟨rfl, h.tick, h.regs, h.mem, h.rest⟩

theorem SameOn.setReg (h : SameOn regs A m s t) (r : BitVec 4) (v : BitVec 64) :
    SameOn ([r] ++ regs) A m (s.setReg r v) (t.setReg r v) := by
  refine ⟨h.pc, h.tick, ?_, h.mem, h.rest⟩
  intro q hq
  rw [setReg_reg, setReg_reg]
  by_cases hqr : q = r
  · rw [if_pos hqr, if_pos hqr]
  · rw [if_neg hqr, if_neg hqr]
    have hmem : q ∈ regs := by simpa [hqr] using hq
    exact h.regs q hmem

theorem SameOn.load (h : SameOn regs A m s t) {a : BitVec 32} {n : ℕ}
    (hA : ∀ j < n, A (a + BitVec.ofNat 32 j)) : loadLE t.mem a n = loadLE s.mem a n :=
  loadLE_congr fun j hj => h.mem _ (hA j hj)

theorem SameOn.store (h : SameOn regs A m s t) {a : BitVec 32} {n : ℕ} (v : ℕ)
    (hA : ∀ j < n, A (a + BitVec.ofNat 32 j)) :
    SameOn regs A m { s with mem := storeLE s.mem a n v }
      { t with mem := storeLE t.mem a n v } := by
  refine ⟨h.pc, h.tick, h.regs, ?_, ?_⟩
  · intro x hx
    show storeLE t.mem a n v x = storeLE s.mem a n v x
    unfold storeLE
    rw [h.mem x hx]
  · intro x hx
    show storeLE t.mem a n v x = m x
    unfold storeLE
    rw [if_neg, h.rest x hx]
    intro hlt
    -- a byte that is stored is one of the access
    apply hx
    have haddr : x = a + BitVec.ofNat 32 (x - a).toNat := by bv_omega
    rw [haddr]
    exact hA _ hlt

/-! ### One iteration -/

theorem alu32_reads {op : AluOp} {source : Src} (hop : i.op = .alu op source)
    (h : ∀ r ∈ i.reads, t.reg r = s.reg r) :
    alu32 c op source (t.reg i.dst) (t.reg i.src) i.imm =
      alu32 c op source (s.reg i.dst) (s.reg i.src) i.imm := by
  simp only [Inst.reads, hop] at h
  cases op <;> cases source <;> simp_all [alu32]

theorem alu64_reads {op : AluOp} {source : Src} (hop : i.op = .alu64 op source)
    (h : ∀ r ∈ i.reads, t.reg r = s.reg r) :
    alu64 c op source (t.reg i.dst) (t.reg i.src) i.imm =
      alu64 c op source (s.reg i.dst) (s.reg i.src) i.imm := by
  simp only [Inst.reads, hop] at h
  cases op <;> cases source <;> simp_all [alu64]

theorem jmpTaken_reads {op : JmpOp} {source : Src} (hop : i.op = .jmp op source)
    (h : ∀ r ∈ i.reads, t.reg r = s.reg r) :
    jmpTaken op source (t.reg i.dst) (t.reg i.src) i.imm =
      jmpTaken op source (s.reg i.dst) (s.reg i.src) i.imm := by
  simp only [Inst.reads, hop] at h
  cases source with
  | imm =>
      rw [h i.dst List.mem_cons_self]
      cases op <;> rfl
  | reg => rw [h i.dst List.mem_cons_self, h i.src (by simp)]

theorem SameOn.memAccess {regs : List (BitVec 4)} (h : SameOn regs A m s t)
    (hreads : ∀ r ∈ i.reads, r ∈ regs) : memAccess i t = memAccess i s := by
  have hregs : ∀ r ∈ i.reads, t.reg r = s.reg r := fun r hr => h.regs r (hreads r hr)
  unfold Vm.memAccess
  cases hop : i.op with
  | ldx => simp only [hregs i.src (by simp [Inst.reads, hop])]
  | st | stx => simp only [hregs i.dst (by simp [Inst.reads, hop])]
  | _ => rfl

theorem SameOn.finishAlu (h : SameOn regs A m s t) (i : Inst) (r : AluResult) :
    Alike (SameOn ([i.dst] ++ regs) A m) (finishAlu s i r) (finishAlu t i r) := by
  cases r with
  | value v => exact .cont (h.setReg i.dst v)
  | divByZero => exact .stop _
  | undefined => exact .stop _

theorem SameOn.execLdx (h : SameOn regs A m s t) {size : Size}
    (hsrc : t.reg i.src = s.reg i.src)
    (hA : ∀ j < size.bytes, A (address (s.reg i.src) i + BitVec.ofNat 32 j)) :
    Alike (SameOn ([i.dst] ++ regs) A m) (execLdx c size i s) (execLdx c size i t) := by
  have hload := h.load hA
  have hloaded (v : BitVec 64) (b : Bool) : Alike (SameOn ([i.dst] ++ regs) A m)
      (if b then .cont (s.setReg i.dst v) else .stop returnError)
      (if b then .cont (t.setReg i.dst v) else .stop returnError) := by
    cases b with
    | true => exact .cont (h.setReg _ _)
    | false => exact .stop _
  simp only [Vm.execLdx, hsrc, hload]
  cases size with
  | w => exact .cont (h.setReg _ _)
  | dw | h | b => exact hloaded _ _

theorem SameOn.execStore (h : SameOn regs A m s t) {size : Size} (v : BitVec 64)
    (hsrc : t.reg i.src = s.reg i.src) (hdst : t.reg i.dst = s.reg i.dst)
    (hA : ∀ j < size.bytes, A (address (s.reg i.dst) i + BitVec.ofNat 32 j)) :
    Alike (SameOn regs A m) (execStore c size v i s) (execStore c size v i t) := by
  simp only [Vm.execStore, hsrc, hdst]
  split
  · exact .cont (h.store v.toNat hA)
  · exact .stop _

theorem SameOn.execCall (h : SameOn regs A m s t)
    (hargs : ∀ r ∈ [(1 : BitVec 4), 2, 3, 4, 5], t.reg r = s.reg r)
    (hhelper : ∀ f, c.vm.extFuncs i.imm.toNat = some f → HelperWithin A f) :
    Alike (SameOn ([0] ++ regs) A m) (execCall c i s) (execCall c i t) := by
  have h1 := hargs 1 (by decide)
  have h2 := hargs 2 (by decide)
  have h3 := hargs 3 (by decide)
  have h4 := hargs 4 (by decide)
  have h5 := hargs 5 (by decide)
  simp only [Vm.execCall, h1, h2, h3, h4, h5]
  cases hf : (if i.imm.toNat < maxExtFuncs then c.vm.extFuncs i.imm.toNat else none) with
  | none => exact .stop _
  | some f =>
      have hin : HelperWithin A f := by
        split at hf
        · exact hhelper f hf
        · cases hf
      obtain ⟨hval, hmem⟩ := hin.alike (s.reg 1) (s.reg 2) (s.reg 3) (s.reg 4) (s.reg 5) s.mem
        t.mem h.mem
      have hafter : SameOn regs A m
          { s with mem := (f (s.reg 1) (s.reg 2) (s.reg 3) (s.reg 4) (s.reg 5) s.mem).2 }
          { t with mem := (f (s.reg 1) (s.reg 2) (s.reg 3) (s.reg 4) (s.reg 5) t.mem).2 } := by
        refine ⟨h.pc, h.tick, h.regs, hmem, ?_⟩
        intro x hx
        exact (hin.rest _ _ _ _ _ t.mem x hx).trans (h.rest x hx)
      simp only [hval]
      exact .cont (hafter.setReg 0 _)

/-- The switch ends alike in states that agree on what the instruction reads,
its second slot included, and on the bytes it accesses. -/
theorem execInst_alike (h : SameOn regs A m s t) (hreads : ∀ r ∈ i.reads, r ∈ regs)
    (hA : ∀ a size, memAccess i s = some (a, size) →
      ∀ j < size.bytes, A (a + BitVec.ofNat 32 j)) (hcalls : CallsWithin A c.vm i)
    (hsecond : i.op = .lddw → c.vm.insts t.mem s.pc.toNat = c.vm.insts s.mem s.pc.toNat) :
    Alike (SameOn (i.writes ++ regs) A m) (execInst c i s) (execInst c i t) := by
  have hregs : ∀ r ∈ i.reads, t.reg r = s.reg r := fun r hr => h.regs r (hreads r hr)
  unfold execInst
  split
  · exact .stop _
  · cases hop : i.op with
    | alu op source =>
        simp only [Inst.writes, hop, alu32_reads hop hregs]
        exact h.finishAlu i _
    | alu64 op source =>
        simp only [Inst.writes, hop, alu64_reads hop hregs]
        exact h.finishAlu i _
    | jmp op source =>
        simp only [Inst.writes, hop, jmpTaken_reads hop hregs, List.nil_append]
        split
        · rw [h.pc]
          exact .cont (h.setPc _)
        · exact .cont h
    | ldx size =>
        have hsrc : t.reg i.src = s.reg i.src := hregs _ (by simp [Inst.reads, hop])
        simp only [Inst.writes, hop]
        exact h.execLdx hsrc (hA _ size (by simp only [memAccess, hop]))
    | st size =>
        have hsrc : t.reg i.src = s.reg i.src := hregs _ (by simp [Inst.reads, hop])
        have hdst : t.reg i.dst = s.reg i.dst := hregs _ (by simp [Inst.reads, hop])
        simp only [Inst.writes, hop, List.nil_append]
        exact h.execStore _ hsrc hdst (hA _ size (by simp only [memAccess, hop]))
    | stx size =>
        have hsrc : t.reg i.src = s.reg i.src := hregs _ (by simp [Inst.reads, hop])
        have hdst : t.reg i.dst = s.reg i.dst := hregs _ (by simp [Inst.reads, hop])
        simp only [Inst.writes, hop, List.nil_append, hsrc]
        exact h.execStore _ hsrc hdst (hA _ size (by simp only [memAccess, hop]))
    | call =>
        simp only [Inst.writes, hop]
        exact h.execCall (fun r hr => hregs r (by simpa only [Inst.reads, hop] using hr))
          (hcalls hop)
    | lddw =>
        simp only [Inst.writes, hop, h.pc, hsecond hop]
        exact .cont ((h.setPc _).setReg _ _)
    | ja =>
        simp only [Inst.writes, hop, h.pc, List.nil_append]
        exact .cont (h.setPc _)
    | exit =>
        have hzero : t.reg 0 = s.reg 0 := hregs _ (by simp [Inst.reads, hop])
        simp only [hzero]
        exact .stop _
    | neg | neg64 | le | be =>
        have hdst : t.reg i.dst = s.reg i.dst := hregs _ (by simp [Inst.reads, hop])
        simp only [Inst.writes, hop, hdst]
        exact .cont (h.setReg _ _)
    | nop | unknown =>
        simp only [Inst.writes, hop, List.nil_append]
        exact .cont h

theorem step_alike (h : SameOn regs A m s t) (hreads : ∀ r ∈ (fetch c s).reads, r ∈ regs)
    (hA : AccessesWithin A c s) (hcalls : CallsWithin A c.vm (fetch c s))
    (hfetch : fetch c t = fetch c s)
    (hsecond : (fetch c s).op = .lddw →
      c.vm.insts t.mem (s.pc + 1).toNat = c.vm.insts s.mem (s.pc + 1).toNat) :
    Alike (SameOn ((fetch c s).writes ++ regs) A m) (step c s) (step c t) := by
  have hnext : SameOn regs A m { s with pc := s.pc + 1 } { t with pc := t.pc + 1 } := by
    rw [h.pc]
    exact h.setPc _
  have hexec := execInst_alike hnext hreads hA hcalls hsecond
  unfold step
  rw [hfetch]
  cases hs : execInst c (fetch c s) { s with pc := s.pc + 1 } with
  | stop o =>
      rw [hs] at hexec
      rw [hexec.stop_eq]
      exact .stop o
  | cont u =>
      rw [hs] at hexec
      cases ht : execInst c (fetch c s) { t with pc := t.pc + 1 } with
      | stop o =>
          rw [ht] at hexec
          cases hexec
      | cont v =>
          rw [ht] at hexec
          cases hexec with
          | cont huv =>
              simp only [huv.tick]
              split
              · exact .cont ⟨huv.pc, rfl, huv.regs, huv.mem, huv.rest⟩
              · exact .stop _

/-! ### Whole runs -/

/-- The helpers of a program, if every byte may matter to them. -/
theorem callsWithin_all (vm : EbpfVm) (i : Inst) : CallsWithin (fun _ => True) vm i := by
  intro _ f _
  refine ⟨?_, fun _ _ _ _ _ _ _ h => absurd trivial h⟩
  intro a b d e g m m' hm
  have hmem : m' = m := funext fun x => hm x trivial
  rw [hmem]
  exact ⟨rfl, fun _ _ => rfl⟩

/-- A program with the registers that are known at each index: none but r1 and
r10 at the start, each instruction reads known ones, and what is known behind
it was known before it or is written by it. -/
structure Initialised (code : List (BitVec 8)) (known : ℕ → List (BitVec 4)) : Prop where
  entry : ∀ r ∈ known 0, r = 1 ∨ r = 10
  reads : ∀ pc < instCount code, ∀ r ∈ (codeInst code pc).reads, r ∈ known pc
  flow : ∀ pc : BitVec 16, pc.toNat < instCount code →
    ∀ q ∈ successors (codeInst code pc.toNat) pc, ∀ r ∈ known q.toNat,
      r ∈ (codeInst code pc.toNat).writes ++ known pc.toNat

/-- What the machine sees inside a program is decided by the bytes of a set. -/
def SeesWithin (A : BitVec 32 → Prop) (code : List (BitVec 8)) (vm : EbpfVm) : Prop :=
  ∀ m m', (∀ a, A a → m' a = m a) → ∀ n < instCount code, vm.insts m' n = vm.insts m n

/-- The bytes of the program decide. -/
theorem Loaded.seesWithin {code : List (BitVec 8)} {base : BitVec 32} {vm : EbpfVm}
    (h : Loaded code base vm m) (hcode : ∀ k < code.length, A (base + BitVec.ofNat 32 k)) :
    SeesWithin A code vm := by
  intro m m' hm n hn
  rw [h.insts_eq]
  refine instAt_congr fun k hk => hm _ (hcode _ ?_)
  unfold instCount at hn
  omega

theorem seesWithin_all (code : List (BitVec 8)) (vm : EbpfVm) :
    SeesWithin (fun _ => True) code vm := by
  intro m m' hm n _
  have hmem : m' = m := funext fun x => hm x trivial
  rw [hmem]

section Run

variable {code : List (BitVec 8)} {reg reg' : BitVec 4 → BitVec 64} {mem mem' : Mem}

/-- The registers and the bytes two runs share at an index. -/
abbrev Shared (known : ℕ → List (BitVec 4)) (A : BitVec 32 → Prop) (m : Mem) (s t : State) : Prop :=
  SameOn (known s.pc.toNat) A m s t

theorem shared_init (hinit : Initialised code known) (hmem : ∀ a, A a → mem' a = mem a) :
    Shared known A mem' (initState c reg mem) (initState c reg' mem') := by
  refine ⟨rfl, rfl, ?_, hmem, fun _ _ => rfl⟩
  intro r hr
  rcases hinit.entry r hr with rfl | rfl <;> rfl

/-- An iteration that fetches the program, stays inside it and accesses bytes of
the set. -/
structure Contained (code : List (BitVec 8)) (A : BitVec 32 → Prop) (c : Call) (s : State) :
    Prop where
  stands : Stands code c.vm s.mem
  confined : Confined (instCount code) c s
  access : AccessesWithin A c s

theorem Contained.step_alike (h : Contained code A c s) (hinit : Initialised code known)
    (hsees : SeesWithin A code c.vm)
    (hcalls : ∀ pc < instCount code, CallsWithin A c.vm (codeInst code pc))
    (hst : Shared known A m s t) :
    Alike (SameOn ((fetch c s).writes ++ known s.pc.toNat) A m) (step c s) (step c t) := by
  have hpc := h.confined.index
  have hfetch := h.stands.fetch hpc
  have hsame := hsees s.mem t.mem hst.mem
  refine Vm.step_alike hst (hfetch ▸ hinit.reads _ hpc) h.access (hfetch ▸ hcalls _ hpc) ?_ ?_
  · rw [Vm.fetch, hst.pc]
    exact hsame _ hpc
  · intro hop
    exact hsame _ (h.confined.second hop)

theorem shared_step (hsees : SeesWithin A code c.vm) (hinit : Initialised code known)
    (hcalls : ∀ pc < instCount code, CallsWithin A c.vm (codeInst code pc))
    (s t : State) (h : Shared known A m s t) (hs : Contained code A c s) :
    Alike (Shared known A m) (step c s) (step c t) := by
  have hpc := hs.confined.index
  have hfetch := hs.stands.fetch hpc
  refine (hs.step_alike hinit hsees hcalls h).mono fun u v hu _ huv => huv.mono ?_
  intro r hr
  -- what is known behind the instruction follows the flow of the program
  have hflow := hinit.flow s.pc hpc u.pc
  rw [← hfetch] at hflow
  refine hflow ?_ r hr
  rw [step_pc hu]
  exact nextIndex_mem_successors (not_endsRun_of_step hu).1

variable (hver : Verified code c.vm) (hinit : Initialised code known)
  (hkept : ∀ s, Reaches (step c) (initState c reg mem) s → Stands code c.vm s.mem)

include hver hkept in
theorem Verified.contained (haccess : ∀ s, Reaches (step c) (initState c reg mem) s →
    AccessesWithin A c s) (hs : Reaches (step c) (initState c reg mem) s) : Contained code A c s :=
  ⟨hkept s hs, hver.confinedRun reg mem hkept s hs, haccess s hs⟩

section Two

variable (hsees : SeesWithin A code c.vm)
  (hcalls : ∀ pc < instCount code, CallsWithin A c.vm (codeInst code pc))
  (haccess : ∀ s, Reaches (step c) (initState c reg mem) s → AccessesWithin A c s)
  (hmem : ∀ a, A a → mem' a = mem a)

include hver hinit hkept hsees hcalls haccess hmem

/-- A run from other registers and other bytes returns the same. -/
theorem ebpfVmExec_congr : ebpfVmExec c reg' mem' = ebpfVmExec c reg mem := by
  have hrun := run_alike (shared_step hsees hinit hcalls) (maxIters + 2)
    (fun s hs => hver.contained hkept haccess hs)
    (shared_init hinit hmem : Shared known A mem' (initState c reg mem) (initState c reg' mem'))
  obtain ⟨o, ho⟩ := run_stops c (initState c reg mem)
  have hfirst : run (step c) (maxIters + 2) (initState c reg mem) = .stop o := ho
  rw [hfirst] at hrun
  rw [ebpfVmExec, ebpfVmExec, hfirst, hrun.stop_eq]

theorem shared_partner (ht : Reaches (step c) (initState c reg' mem') t) :
    ∃ s, Reaches (step c) (initState c reg mem) s ∧ Shared known A mem' s t :=
  ht.partner (shared_step hsees hinit hcalls) (fun _ hs => hver.contained hkept haccess hs)
    (shared_init hinit hmem)

end Two

variable (reg) in
include hver hinit hkept in
/-- A state of a run and its partner in the run from other registers: they have
the same memory, access the same addresses and end alike. -/
theorem exists_partner (ht : Reaches (step c) (initState c reg' mem) t) :
    ∃ s, Reaches (step c) (initState c reg mem) s ∧ t.mem = s.mem ∧
      (AccessesWithin A c s → AccessesWithin A c t) ∧
      ∀ o, step c t = .stop o → step c s = .stop o := by
  have hsees := seesWithin_all code c.vm
  have hcalls (pc : ℕ) (_ : pc < instCount code) := callsWithin_all c.vm (codeInst code pc)
  have haccess : ∀ s, Reaches (step c) (initState c reg mem) s →
      AccessesWithin (fun _ => True) c s := fun _ _ _ _ _ _ _ => trivial
  obtain ⟨s, hs, hshared⟩ := shared_partner hver hinit hkept hsees hcalls haccess
    (fun _ _ => rfl) ht
  have hcontained := hver.contained hkept haccess hs
  have hpc := hcontained.confined.index
  have hmem : t.mem = s.mem := funext fun a => hshared.mem a trivial
  have hfetch : fetch c t = fetch c s := by rw [fetch, fetch, hshared.pc, hmem]
  have hreads : ∀ r ∈ (fetch c s).reads, r ∈ known s.pc.toNat := by
    rw [hcontained.stands.fetch hpc]
    exact hinit.reads _ hpc
  refine ⟨s, hs, hmem, ?_, ?_⟩
  · intro haccess a size hsize
    rw [hfetch, hshared.memAccess hreads] at hsize
    exact haccess a size hsize
  · intro o ho
    have halike := hcontained.step_alike hinit hsees hcalls hshared
    rw [ho] at halike
    exact halike.of_stop

end Run

/-- What a run starts with in the registers, and the bytes that it does not
access or execute, do not matter, if it leaves its own code as it is. A run from
other ones returns the same; each of its states agrees with one of the first
run, and the bytes outside stay as they were. -/
theorem ebpfVmExec_determined (code : List (BitVec 8)) (base : BitVec 32) (c : Call)
    (mem : Mem) (hload : Loaded code base c.vm mem) (hver : Verified code c.vm)
    (known : ℕ → List (BitVec 4)) (hinit : Initialised code known) (A : BitVec 32 → Prop)
    (hcode : ∀ k < code.length, A (base + BitVec.ofNat 32 k))
    (hcalls : ∀ pc < instCount code, CallsWithin A c.vm (codeInst code pc))
    (reg reg' : BitVec 4 → BitVec 64) (mem' : Mem)
    (haccess : ∀ s, Reaches (step c) (initState c reg mem) s → AccessesWithin A c s)
    (hkept : ∀ s, Reaches (step c) (initState c reg mem) s → Stands code c.vm s.mem)
    (hmem : ∀ a, A a → mem' a = mem a) :
    ebpfVmExec c reg' mem' = ebpfVmExec c reg mem ∧
      ∀ t, Reaches (step c) (initState c reg' mem') t →
        ∃ s, Reaches (step c) (initState c reg mem) s ∧ SameOn (known s.pc.toNat) A mem' s t :=
  have hsees := hload.seesWithin hcode
  ⟨ebpfVmExec_congr hver hinit hkept hsees hcalls haccess hmem,
    fun _ ht => shared_partner hver hinit hkept hsees hcalls haccess hmem ht⟩

/-- `ldxb r0, [r1]` and `exit`. -/
def firstByte : List (BitVec 8) :=
  [0x71, 0x10, 0, 0, 0, 0, 0, 0, 0x95, 0, 0, 0, 0, 0, 0, 0]

theorem firstByte_load : codeInst firstByte 0 =
    { opcode := (Opcode.ldx .b).byte, dst := 0, src := 1, offset := 0, imm := 0 } := rfl

theorem firstByte_exit : codeInst firstByte 1 =
    { opcode := Opcode.exit.byte, dst := 0, src := 0, offset := 0, imm := 0 } := rfl

theorem firstByte_index {pc : ℕ} (hpc : pc < instCount firstByte) : pc = 0 ∨ pc = 1 := by
  have hlt : pc < 2 := hpc
  omega

theorem firstByte_cases {pc : BitVec 16} (hpc : pc.toNat < instCount firstByte) :
    pc = 0 ∨ pc = 1 := by
  have hlt : pc.toNat < 2 := hpc
  bv_omega

theorem firstByte_verified : Verified firstByte (callOf firstByte).vm where
  pos := by decide
  insts := by
    intro pc hpc
    rcases firstByte_cases hpc with rfl | rfl
    · constructor <;> rw [show (0 : BitVec 16).toNat = 0 from rfl, firstByte_load] <;>
        simp only [Inst.regsInFile, successors, Inst.op, opcodeOf_byte,
          List.forall_mem_singleton] <;>
        decide
    · constructor <;> rw [show (1 : BitVec 16).toNat = 1 from rfl, firstByte_exit] <;>
        simp only [Inst.regsInFile, successors, Inst.op, opcodeOf_byte, List.not_mem_nil,
          false_implies, implies_true] <;>
        decide

theorem firstByte_initialised :
    Initialised firstByte fun pc => if pc = 0 then [1] else [0] where
  entry := by decide
  reads := by
    intro pc hpc
    obtain rfl | rfl := firstByte_index hpc
    · rw [firstByte_load]
      simp [Inst.reads, Inst.op, opcodeOf_byte]
    · rw [firstByte_exit]
      simp [Inst.reads, Inst.op, opcodeOf_byte]
  flow := by
    intro pc hpc
    rcases firstByte_cases hpc with rfl | rfl
    · rw [show (0 : BitVec 16).toNat = 0 from rfl, firstByte_load]
      simp [successors, Inst.writes, Inst.op, opcodeOf_byte]
    · rw [show (1 : BitVec 16).toNat = 1 from rfl, firstByte_exit]
      simp [successors, Inst.op, opcodeOf_byte]

/-- The byte at the address the program reads, the rest of the memory, and the
program in it. -/
def byteAndRest (x y : BitVec 8) : Mem :=
  memcpy (fun a => if a = 0 then x else y) codeBase firstByte

def ByteAndCode (a : BitVec 32) : Prop :=
  a = 0 ∨ ∃ k < firstByte.length, a = codeBase + BitVec.ofNat 32 k

theorem firstByte_determined :
    ebpfVmExec (callOf firstByte) (fun _ => 7) (byteAndRest 5 1) =
        ebpfVmExec (callOf firstByte) (fun _ => 0) (byteAndRest 5 0) ∧
      ∀ t, Reaches (step (callOf firstByte))
          (initState (callOf firstByte) (fun _ => 7) (byteAndRest 5 1)) t →
        ∃ s, Reaches (step (callOf firstByte))
            (initState (callOf firstByte) (fun _ => 0) (byteAndRest 5 0)) s ∧
          SameOn (if s.pc.toNat = 0 then [1] else [0]) ByteAndCode (byteAndRest 5 1) s t := by
  have hload := callOf_loaded firstByte fun a => if a = 0 then 5 else 0
  have hfirst : step (callOf firstByte)
      (initState (callOf firstByte) (fun _ => 0) (byteAndRest 5 0)) =
        .cont { (initState (callOf firstByte) (fun _ => 0) (byteAndRest 5 0)).setReg 0 5 with
          pc := 1
          tick := 1 } := rfl
  have hexit : step (callOf firstByte)
      { (initState (callOf firstByte) (fun _ => 0) (byteAndRest 5 0)).setReg 0 5 with
        pc := 1
        tick := 1 } = .stop (.returned .exit 5) := rfl
  refine ebpfVmExec_determined firstByte codeBase (callOf firstByte) _ hload firstByte_verified _
    firstByte_initialised ByteAndCode (fun k hk => .inr ⟨k, hk, rfl⟩) ?_ _ _ _ ?_ ?_ ?_
  · intro pc hpc hop
    obtain rfl | rfl := firstByte_index hpc
    · rw [firstByte_load, Inst.op, opcodeOf_byte] at hop
      cases hop
    · rw [firstByte_exit, Inst.op, opcodeOf_byte] at hop
      cases hop
  · refine (Reaches.forall_cont_iff hfirst).mpr ⟨?_, (Reaches.forall_stop_iff hexit).mpr ?_⟩
    · intro a size hsize
      cases hsize
      intro j hj
      obtain rfl : j = 0 := Nat.lt_one_iff.mp hj
      exact .inl rfl
    · intro a size hsize
      cases hsize
  · exact (Reaches.forall_cont_iff hfirst).mpr
      ⟨hload.stands, (Reaches.forall_stop_iff hexit).mpr hload.stands⟩
  · rintro a (rfl | ⟨k, hk, rfl⟩)
    · rfl
    · have hlt : k < 2 ^ 32 := hk.trans_le (by decide)
      have hcopied (m : Mem) := bytesFrom_memcpy m codeBase firstByte hlt
      simp only [bytesFrom] at hcopied
      rw [byteAndRest, hcopied, hcopied, overlay_of_lt hk, overlay_of_lt hk]

end RapidPatch.Vm
