import RapidPatch.Support.Blocks
import RapidPatch.Support.Events
import RapidPatch.Support.LinkedList
import RapidPatch.Vm.Load

/-!
The programs of `ebpf_env.c`.

`current_env` holds a linked list of programs, its last node, and the number
of programs that were ever added, which is also the number of the latest.
`ebpf_remove_prog` frees the program and does not touch `current_env`, so a
program that is removed stays in the list: the list holds live programs
exactly as long as none is removed (`programs_live_iff`). The allocations of
machines and nodes are taken to succeed.
-/

namespace RapidPatch.Vm

open RapidPatch.Support

/-- `ebpf_prog`, with its pointers. -/
structure EbpfProg where
  progId : ℤ
  next : Option ℕ
  vm : Option ℕ

/-- `current_env`, and the heap of programs and machines. -/
structure EbpfEnv where
  progs : Blocks EbpfProg
  vms : Blocks VmRecord
  progList : Option ℕ
  tail : Option ℕ
  curSize : ℤ

namespace EbpfEnv

/-- `init_ubpf_env`, with an empty heap. -/
def initUbpfEnv : EbpfEnv where
  progs := .empty
  vms := .empty
  progList := none
  tail := none
  curSize := 0

/-- The zeroed machine of `ebpf_create`. -/
def createdVm : VmRecord where
  insts := 0
  numInsts := 0
  boundsCheckEnabled := false
  extFuncs := fun _ => none

/-- `current_env.tail->next = prog`, if there is a last node. -/
def linkTail (progs : Blocks EbpfProg) (tail : Option ℕ) (prog : ℕ) : Option (Blocks EbpfProg) :=
  match tail with
  | none => some progs
  | some tail => do
      let last ← progs.read (some tail)
      progs.write (some tail) { last with next := some prog }

/-- `ebpf_add_prog`, with the memory around and what the allocation of the code
returns; those of the machine and the node succeed. It is undefined where
`cur_size` overflows. -/
def ebpfAddProg (env : EbpfEnv) (malloc : BitVec 32) (code : List (BitVec 8)) (mem : Mem) :
    Option (EbpfEnv × ℕ) := do
  let (vms, vm) := env.vms.alloc (ebpfVmLoad createdVm malloc code mem).1
  -- `prog_id` is not set before the end
  let (progs, prog) := env.progs.alloc ⟨0, none, some vm⟩
  let progList := if env.progList = none then some prog else env.progList
  let progs ← linkTail progs env.tail prog
  if env.curSize + 1 ≥ 2 ^ 31 then none
  else
    let curSize := env.curSize + 1
    let progs ← progs.write (some prog) ⟨curSize, none, some vm⟩
    return (⟨progs, vms, progList, some prog, curSize⟩, prog)

/-- `ebpf_remove_prog`. The table of helpers that `ebpf_vm_destroy` gives back
is not one of the environment's. -/
def ebpfRemoveProg (env : EbpfEnv) (prog : ℕ) : Option EbpfEnv := do
  let p ← env.progs.read (some prog)
  let vms ← env.vms.free p.vm
  let progs ← env.progs.free (some prog)
  return { env with progs := progs, vms := vms }

end EbpfEnv

/-! ### Calls -/

inductive ProgOp
  | add (malloc : BitVec 32) (code : List (BitVec 8)) (mem : Mem)
  | remove (prog : ℕ)

/-- The program was added and not removed. -/
def EbpfEnv.Live (env : EbpfEnv) (prog : ℕ) : Prop := (env.progs.cell prog).isSome

instance (env : EbpfEnv) (prog : ℕ) : Decidable (env.Live prog) :=
  inferInstanceAs (Decidable (_ = true))

/-- Only live programs are removed. -/
def ProgOp.Asked (env : EbpfEnv) : ProgOp → Prop
  | .add _ _ _ => True
  | .remove prog => env.Live prog

instance (env : EbpfEnv) : DecidablePred (ProgOp.Asked env)
  | .add _ _ _ => inferInstanceAs (Decidable True)
  | .remove prog => inferInstanceAs (Decidable (env.Live prog))

def progStep (env : EbpfEnv) : ProgOp → Option EbpfEnv
  | .add malloc code mem => (env.ebpfAddProg malloc code mem).map Prod.fst
  | .remove prog => env.ebpfRemoveProg prog

def progCall (o : Option EbpfEnv) (op : ProgOp) : Option (Option EbpfEnv) :=
  o.bind fun env => if op.Asked env then some (progStep env op) else none

namespace EbpfEnv

/-- The `next` pointers of the live programs. -/
def next (env : EbpfEnv) (prog : ℕ) : Option ℕ := (env.progs.cell prog).bind (·.next)

/-- The list leads to a node. -/
def Reachable (env : EbpfEnv) (prog : ℕ) : Prop :=
  ∃ l, Segment env.next env.progList l (some prog)

/-- The list and its end are live programs, and these have different
numbers. -/
structure ListsLive (env : EbpfEnv) : Prop where
  reachable : ∀ prog, env.Reachable prog → env.Live prog
  tail : ∀ prog, env.tail = some prog → env.Live prog
  distinct : ∀ i j u v, env.progs.cell i = some u → env.progs.cell j = some v →
    u.progId = v.progId → i = j

end EbpfEnv

/-- No call has gone wrong, and the list holds live programs. -/
def ProgramsLive (o : Option EbpfEnv) : Prop := ∃ env, o = some env ∧ env.ListsLive

/-- A program is added, and `cur_size` has room for it. -/
def ProgFits (o : Option EbpfEnv) : ProgOp → Prop
  | .add _ _ _ => ∃ env, o = some env ∧ env.curSize + 1 < 2 ^ 31
  | .remove _ => False

/-! ### Without removals

The programs are then the blocks of the heap, in the order they were added. -/

/-- What is in the block of a program. -/
structure EbpfEnv.AllAdded (env : EbpfEnv) : Prop where
  cell : ∀ i < env.progs.count, ∃ vm, env.progs.cell i =
    some ⟨i + 1, if i + 1 < env.progs.count then some (i + 1) else none, vm⟩
  progList : env.progList = if env.progs.count = 0 then none else some 0
  tail : env.tail = if env.progs.count = 0 then none else some (env.progs.count - 1)
  curSize : env.curSize = env.progs.count

def KeepsAll (o : Option EbpfEnv) : Prop := ∃ env, o = some env ∧ env.AllAdded

namespace EbpfEnv

variable {env env' : EbpfEnv}

theorem allAdded_init : initUbpfEnv.AllAdded := by
  refine ⟨fun i hi => absurd hi (Nat.not_lt_zero i), rfl, rfl, rfl⟩

theorem AllAdded.live_iff (h : env.AllAdded) {i : ℕ} : env.Live i ↔ i < env.progs.count := by
  constructor
  · intro hi
    by_contra hle
    rw [Live, env.progs.unused i (Nat.not_lt.mp hle)] at hi
    cases hi
  · intro hi
    obtain ⟨vm, hcell⟩ := h.cell i hi
    rw [Live, hcell]
    rfl

theorem AllAdded.next_eq (h : env.AllAdded) {i : ℕ} (hi : i < env.progs.count) :
    env.next i = if i + 1 < env.progs.count then some (i + 1) else none := by
  obtain ⟨vm, hcell⟩ := h.cell i hi
  rw [next, hcell]
  rfl

theorem AllAdded.listsLive (h : env.AllAdded) : env.ListsLive := by
  refine ⟨?_, ?_, ?_⟩
  · rintro prog ⟨l, hl⟩
    rw [h.live_iff]
    refine hl.of_closed (S := fun i => i < env.progs.count) ?_ ?_
    · intro j hj
      rw [h.progList] at hj
      split at hj
      · cases hj
      · cases hj
        omega
    · intro j k hj hk
      rw [h.next_eq hj] at hk
      split at hk
      · cases hk
        assumption
      · cases hk
  · intro prog hprog
    rw [h.tail] at hprog
    rw [h.live_iff]
    split at hprog
    · cases hprog
    · cases hprog
      omega
  · intro i j u v hi hj hid
    obtain ⟨vm, hu⟩ := h.cell i (Blocks.lt_count hi)
    obtain ⟨vm', hv⟩ := h.cell j (Blocks.lt_count hj)
    rw [hi, Option.some.injEq] at hu
    rw [hj, Option.some.injEq] at hv
    subst hu hv
    simp only at hid
    omega

theorem AllAdded.linkTail (h : env.AllAdded) (u : EbpfProg) :
    ∃ progs, EbpfEnv.linkTail (env.progs.alloc u).1 env.tail env.progs.count = some progs ∧
      progs.count = env.progs.count + 1 ∧ progs.cell env.progs.count = some u ∧
      ∀ i < env.progs.count, ∃ vm, progs.cell i = some ⟨i + 1, some (i + 1), vm⟩ := by
  by_cases hzero : env.progs.count = 0
  · refine ⟨(env.progs.alloc u).1, ?_, rfl, Blocks.alloc_cell_self, fun i hi => by omega⟩
    rw [h.tail, if_pos hzero]
    rfl
  · obtain ⟨vm, hlast⟩ := h.cell (env.progs.count - 1) (by omega)
    have hcell := Blocks.alloc_cell (v := u) hlast
    refine ⟨(env.progs.alloc u).1.put (env.progs.count - 1)
      (some ⟨(env.progs.count - 1 : ℕ) + 1, some env.progs.count, vm⟩), ?_, rfl, ?_, ?_⟩
    · rw [h.tail, if_neg hzero]
      simp only [EbpfEnv.linkTail, Blocks.read_some, hcell, Option.bind_eq_bind, Option.bind_some,
        Blocks.write_of_live hcell]
    · rw [Blocks.put_cell_of_ne (by omega), Blocks.alloc_cell_self]
    · intro i hi
      by_cases hlt : i + 1 < env.progs.count
      · obtain ⟨vm', hi'⟩ := h.cell i hi
        rw [if_pos hlt] at hi'
        exact ⟨vm', by rw [Blocks.put_cell_of_ne (by omega), Blocks.alloc_cell hi']⟩
      · obtain rfl : i = env.progs.count - 1 := by omega
        refine ⟨vm, ?_⟩
        rw [Blocks.put_cell_self hcell, Nat.sub_add_cancel (by omega)]

theorem AllAdded.add (h : env.AllAdded) (hroom : env.curSize + 1 < 2 ^ 31)
    (malloc : BitVec 32) (code : List (BitVec 8)) (mem : Mem) :
    ∃ env' prog, env.ebpfAddProg malloc code mem = some (env', prog) ∧ env'.AllAdded := by
  obtain ⟨progs, hlink, hcount, hnew, hcell⟩ := h.linkTail ⟨0, none, some env.vms.count⟩
  refine ⟨⟨progs.put env.progs.count (some ⟨env.curSize + 1, none, some env.vms.count⟩),
    (env.vms.alloc (ebpfVmLoad createdVm malloc code mem).1).1,
    if env.progList = none then some env.progs.count else env.progList,
    some env.progs.count, env.curSize + 1⟩, env.progs.count, ?_, ?_, ?_, ?_, ?_⟩
  · simp only [ebpfAddProg, Blocks.alloc_snd, hlink, Option.bind_eq_bind, Option.bind_some,
      if_neg (not_le.mpr hroom), Blocks.write_of_live hnew]
    rfl
  · intro i hi
    simp only [Blocks.put_count, hcount] at hi ⊢
    by_cases hlast : i = env.progs.count
    · subst hlast
      refine ⟨some env.vms.count, ?_⟩
      rw [Blocks.put_cell_self hnew, if_neg (Nat.lt_irrefl _), h.curSize]
    · obtain ⟨vm, hi'⟩ := hcell i (by omega)
      refine ⟨vm, ?_⟩
      rw [Blocks.put_cell_of_ne hlast, hi', if_pos (by omega)]
  · simp only [Blocks.put_count, hcount, h.progList, Nat.succ_ne_zero, if_false]
    split
    · rename_i hzero
      rw [if_pos rfl, hzero]
    · rfl
  · simp only [Blocks.put_count, hcount, Nat.succ_ne_zero, if_false, Nat.add_sub_cancel]
  · simp only [Blocks.put_count, hcount, h.curSize]
    rfl

/-- The list leads to every program. -/
theorem AllAdded.segment (h : env.AllAdded) {i : ℕ} (hi : i < env.progs.count) :
    Segment env.next env.progList (List.range' 0 i) (some i) := by
  have hsegment : Segment env.next (some 0) (List.range' 0 i) (some (0 + i)) :=
    segment_range' fun j _ hj => by rw [h.next_eq (by omega), if_pos (by omega)]
  rw [h.progList, if_neg (by omega)]
  rwa [Nat.zero_add] at hsegment

/-- A program that is removed stays in the list. -/
theorem AllAdded.not_listsLive_remove (h : env.AllAdded) {prog : ℕ} (hlive : env.Live prog)
    (hremove : env.ebpfRemoveProg prog = some env') : ¬env'.ListsLive := by
  have hlt := h.live_iff.mp hlive
  obtain ⟨vm, hcell⟩ := h.cell prog hlt
  simp only [ebpfRemoveProg, Blocks.read_some, hcell, Option.bind_eq_bind, Option.bind_some,
    Option.bind_eq_some_iff, Blocks.free_of_live hcell] at hremove
  obtain ⟨vms, -, henv⟩ := hremove
  cases henv
  intro hlists
  have hfreed : ((env.progs.put prog none).cell prog).isSome = true := by
    refine hlists.reachable prog ⟨List.range' 0 prog, ?_⟩
    have hnext : EbpfEnv.next { env with progs := env.progs.put prog none, vms := vms } =
        Function.update env.next prog none := by
      funext j
      by_cases hj : j = prog
      · subst hj
        rw [Function.update_self, next, Blocks.put_cell_self hcell]
        rfl
      · rw [Function.update_of_ne hj, next, Blocks.put_cell_of_ne hj]
        rfl
    rw [hnext]
    exact (h.segment hlt).update_of_notMem (by simp) none
  rw [Blocks.put_cell_self hcell] at hfreed
  cases hfreed

end EbpfEnv

/-! ### Runs -/

variable {o o' : Option EbpfEnv} {op : ProgOp}

theorem KeepsAll.programsLive (ho : KeepsAll o) : ProgramsLive o := by
  obtain ⟨env, rfl, h⟩ := ho
  exact ⟨env, rfl, h.listsLive⟩

theorem progCall_some {env : EbpfEnv} (hcall : progCall (some env) op = some o') :
    op.Asked env ∧ o' = progStep env op := by
  simp only [progCall, Option.bind_some] at hcall
  split at hcall
  · cases hcall
    exact ⟨‹_›, rfl⟩
  · cases hcall

/-- A call that fits keeps the programs. -/
theorem KeepsAll.call (ho : KeepsAll o) (hfits : ProgFits o op) (hcall : progCall o op = some o') :
    KeepsAll o' := by
  obtain ⟨env, rfl, h⟩ := ho
  obtain ⟨-, rfl⟩ := progCall_some hcall
  cases op with
  | add malloc code mem =>
      obtain ⟨env', henv', hroom⟩ := hfits
      cases henv'
      obtain ⟨env', prog, hadd, h'⟩ := h.add hroom malloc code mem
      refine ⟨env', ?_, h'⟩
      rw [progStep, hadd]
      rfl
  | remove prog => exact absurd hfits not_false

/-- A call that does not fit loses them. -/
theorem KeepsAll.fits (ho : KeepsAll o) (hcall : progCall o op = some o')
    (hlive : ProgramsLive o') : ProgFits o op := by
  obtain ⟨env, rfl, h⟩ := ho
  obtain ⟨hasked, rfl⟩ := progCall_some hcall
  obtain ⟨env', hstep, hlists⟩ := hlive
  cases op with
  | add malloc code mem =>
      refine ⟨env, rfl, ?_⟩
      by_contra hfull
      obtain ⟨progs, hlink, -⟩ := h.linkTail ⟨0, none, some env.vms.count⟩
      simp only [progStep, EbpfEnv.ebpfAddProg, Blocks.alloc_snd, hlink, Option.bind_eq_bind,
        Option.bind_some, if_pos (not_lt.mp hfull), Option.map_none] at hstep
      cases hstep
  | remove prog => exact h.not_listsLive_remove hasked hstep hlists

/-- The list holds live programs with different numbers exactly as long as
programs are only added, and fewer than `cur_size` can count. -/
theorem programs_live_iff (ops : List ProgOp) :
    Throughout progCall ProgramsLive (some EbpfEnv.initUbpfEnv) ops ↔
      EachStep progCall ProgFits (some EbpfEnv.initUbpfEnv) ops := by
  have hstart : KeepsAll (some EbpfEnv.initUbpfEnv) := ⟨_, rfl, EbpfEnv.allAdded_init⟩
  have hstep (u : Option EbpfEnv) (e : ProgOp) (v : Option EbpfEnv) (hu : KeepsAll u)
      (hC : ProgFits u e) (hv : progCall u e = some v) : KeepsAll v := hu.call hC hv
  exact throughout_iff_eachStep_of_kept hstep (fun _ _ _ hu hv hlive => hu.fits hv hlive)
    (fun _ hu => hu.programsLive) hstart ops

theorem not_programs_live_remove :
    ¬Throughout progCall ProgramsLive (some EbpfEnv.initUbpfEnv)
      [.add 0 [] (fun _ => 0), .remove 0] := by
  intro h
  obtain ⟨env, henv, hlists⟩ := ((h.2 _ rfl).2 _ rfl).head
  cases henv
  exact absurd (hlists.tail 0 rfl) (by decide)

end RapidPatch.Vm
