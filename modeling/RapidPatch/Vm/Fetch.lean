import RapidPatch.Vm.Load

/-!
Programs that do not change.

The interpreter fetches from the memory that programs store to.
`Call.withInsts` is a call on instructions that no store reaches, which is what
the rules about programs are stated for. As long as a run fetches what they
say, it is the run on these instructions, state by state
(`ebpfVmExec_withInsts`, `reaches_withInsts`); among them are all runs that
leave the memory as it is.
-/

namespace RapidPatch.Vm

open RapidPatch.Support

/-- The call on these instructions, whatever memory holds. -/
def Call.withInsts (c : Call) (insts : ℕ → Inst) : Call :=
  { c with vm := { c.vm with insts := fun _ => insts } }

/-- The iteration from a state fetches one of these instructions, with its
second slot. -/
structure Fetches (insts : ℕ → Inst) (c : Call) (s : State) : Prop where
  first : fetch c s = insts s.pc.toNat
  second : (insts s.pc.toNat).op = .lddw →
    c.vm.insts s.mem (s.pc + 1).toNat = insts (s.pc + 1).toNat

section

variable {c : Call} {s t : State} {i : Inst} {insts : ℕ → Inst} {code : List (BitVec 8)}
  {reg : BitVec 4 → BitVec 64} {mem : Mem}

/-- Only `LDDW` looks at another slot. -/
theorem execInst_withInsts
    (hsecond : i.op = .lddw → c.vm.insts s.mem s.pc.toNat = insts s.pc.toNat) :
    execInst (c.withInsts insts) i s = execInst c i s := by
  unfold execInst
  split
  · rfl
  · cases hop : i.op with
    | lddw =>
        simp only [hsecond hop]
        rfl
    | _ => rfl

theorem Fetches.step_eq (h : Fetches insts c s) : step (c.withInsts insts) s = step c s := by
  have hfetch : fetch (c.withInsts insts) s = fetch c s := h.first.symm
  unfold step
  rw [hfetch, execInst_withInsts fun hop => h.second (h.first ▸ hop)]
  rfl

/-- A program that stands is fetched. -/
theorem Stands.fetches (h : Stands code c.vm s.mem) (hconfined : Confined (instCount code) c s) :
    Fetches (codeInst code) c s :=
  ⟨h _ hconfined.index, fun hop => h _ (hconfined.second (h.fetch hconfined.index ▸ hop))⟩

theorem reaches_withInsts
    (h : ∀ t, Reaches (step (c.withInsts insts)) (initState c reg mem) t → Fetches insts c t) :
    Reaches (step c) (initState c reg mem) s ↔
      Reaches (step (c.withInsts insts)) (initState c reg mem) s :=
  Reaches.congr fun t ht => (h t ht).step_eq.symm

theorem ebpfVmExec_withInsts
    (h : ∀ t, Reaches (step (c.withInsts insts)) (initState c reg mem) t → Fetches insts c t) :
    ebpfVmExec c reg mem = ebpfVmExec (c.withInsts insts) reg mem :=
  run_congr fun t ht => (h t ht).step_eq.symm

/-- The same of a run whose states are known to fetch them. -/
theorem withInsts_of_fetches
    (h : ∀ t, Reaches (step c) (initState c reg mem) t → Fetches insts c t) :
    (∀ s, Reaches (step (c.withInsts insts)) (initState c reg mem) s ↔
      Reaches (step c) (initState c reg mem) s) ∧
      ebpfVmExec (c.withInsts insts) reg mem = ebpfVmExec c reg mem :=
  ⟨fun _ => Reaches.congr fun t ht => (h t ht).step_eq, run_congr fun t ht => (h t ht).step_eq⟩

/-! ### Instructions that store nothing -/

/-- The instruction may change memory. -/
def Inst.stores (i : Inst) : Bool :=
  match i.op with
  | .st _ | .stx _ | .call => true
  | _ => false

theorem finishAlu_mem {i : Inst} {r : AluResult} (h : finishAlu s i r = .cont t) :
    t.mem = s.mem := by
  obtain ⟨v, rfl⟩ := finishAlu_cont h
  rfl

theorem execLdx_mem {size : Size} {i : Inst} (h : execLdx c size i s = .cont t) :
    t.mem = s.mem := by
  cases size with
  | w =>
      cases h
      rfl
  | dw | h | b =>
      simp only [execLdx] at h
      split at h
      · cases h
        rfl
      · cases h

theorem execInst_mem {i : Inst} (h : execInst c i s = .cont t) (hstores : ¬i.stores = true) :
    t.mem = s.mem := by
  unfold execInst at h
  split at h
  · cases h
  · cases hop : i.op with
    | alu | alu64 =>
        rw [hop] at h
        exact finishAlu_mem h
    | ldx size =>
        rw [hop] at h
        exact execLdx_mem h
    | st | stx | call => exact absurd (by simp only [Inst.stores, hop]) hstores
    | jmp =>
        simp only [hop] at h
        split at h
        · cases h
          rfl
        · cases h
          rfl
    | exit =>
        rw [hop] at h
        cases h
    | _ =>
        simp only [hop] at h
        cases h
        rfl

theorem step_mem (h : step c s = .cont t) (hstores : ¬(fetch c s).stores = true) :
    t.mem = s.mem := by
  obtain ⟨u, hu, -, rfl⟩ := step_cont h
  have hmem := execInst_mem hu hstores
  exact hmem

end

end RapidPatch.Vm
