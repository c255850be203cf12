import Mathlib.Algebra.Order.Ring.Int
import Mathlib.Data.List.GetD
import Mathlib.Data.Nat.Cast.Order.Ring
import Mathlib.Logic.Function.Basic
import RapidPatch.Jit.Layout
import RapidPatch.Support.Align

/-!
`gen_jit_code` and the memory it compiles into.

With `JIT_STATIC_MEM` there is one code buffer, one table and one `jit_mem`,
and every machine gets these. `genJitCode` is the whole call on a state that
holds the buffer and all machines; it is undefined where the translation
leaves the two arrays. After any sequence of calls the buffer holds the code
of the machine compiled last, and the `jit_func` of each machine that was
ever compiled points to it (`genAll_last`). So two machines can be in use at
a time exactly when their programs translate to the same code
(`compilesApart_iff`).

The call leaves a `jit_func` whatever `build_inst` made of the instructions,
and `err_line` is a field of its local `jit_state`: a translation that dropped
instructions looks to the caller like any other (`reportsFailure_iff`).
-/

namespace RapidPatch.Jit

open RapidPatch.Vm RapidPatch.Support

structure Image where
  /-- The address of `jit_buffer`. -/
  jitBuffer : BitVec 32
  /-- The address of `offset_mem`. -/
  offsetMem : BitVec 32
  /-- The words in front of `offset_mem` and behind it. -/
  around : ℤ → BitVec 32
  /-- What lies behind the last row of `bpf2a32`. -/
  behind : Row

structure JitMem where
  jitCode : BitVec 32
  codeSize : ℤ
  jmpOffsets : BitVec 32

/-- The fields of `ebpf_vm` that `gen_jit_code` uses. -/
structure JitVm where
  /-- The memory `insts` points to. -/
  insts : ℕ → Inst
  numInsts : BitVec 16
  /-- The words behind `helper_func->ext_funcs`. -/
  extFuncs : BitVec 32 → BitVec 32
  jitFunc : BitVec 32
  /-- Whether `jmem` is set. There is one `jit_mem` it can point to. -/
  jmem : Bool

/-- The static memory of the translator, and the machines. -/
structure JitState (V : Type) where
  /-- The bytes of `jit_buffer`. -/
  buffer : ℕ → BitVec 8
  gJitMem : JitMem
  vm : V → JitVm

def jitMemFree {V : Type} (s : JitState V) : JitState V :=
  { s with gJitMem := { jitCode := 0, codeSize := 0, jmpOffsets := 0 } }

/-- `jit_mem_allocate`, which ignores the number of instructions. -/
def jitMemAllocate {V : Type} (im : Image) (s : JitState V) : JitState V :=
  { s with
    buffer := fun _ => 0
    gJitMem :=
      { jitCode := im.jitBuffer, codeSize := jitBufferSize, jmpOffsets := im.offsetMem } }

/-- The table after `jit_mem_allocate`. -/
def clearedTable (im : Image) : ℤ → BitVec 32 :=
  fun j => if 0 ≤ j ∧ j < offsetSlots then 0 else im.around j

def JitVm.input (im : Image) (vm : JitVm) : Input where
  insts := vm.insts
  instNum := vm.numInsts.toNat
  callBase := vm.extFuncs
  behind := im.behind

def JitVm.translation (im : Image) (vm : JitVm) : Code :=
  (jitCompile (vm.input im) (clearedTable im)).code

/-- The bytes of the code, as `emit2` writes them. -/
def codeBytes (code : Code) : List (BitVec 8) :=
  code.flatMap fun hw : BitVec 16 => [hw.setWidth 8, (hw >>> 8).setWidth 8]

/-- `emit_bytes` to the address `a`, if that stays in `jit_buffer`. -/
def writeBuffer (im : Image) (buffer : ℕ → BitVec 8) (a : BitVec 32) (bytes : List (BitVec 8)) :
    Option (ℕ → BitVec 8) :=
  let start : ℤ := a.toNat - im.jitBuffer.toNat
  if 0 ≤ start ∧ start + bytes.length ≤ jitBufferSize then
    some fun i =>
      if start ≤ i ∧ i < start + bytes.length then bytes.getD (i - start.toNat) 0 else buffer i
  else none

section Gen

variable {V : Type} [DecidableEq V] {im : Image} {s s' : JitState V} {v : V}

/-- `gen_jit_code`, if the translation stays in the two arrays. -/
def genJitCode (im : Image) (s : JitState V) (v : V) : Option (JitState V) := do
  let s := if (s.vm v).jmem then jitMemFree s else s
  let s := jitMemAllocate im s
  let vm := s.vm v
  let p := vm.input im
  if ∀ pc ∈ visited p, slotOf p pc < offsetSlots then
    -- `jit_state_set_mem` aligns the address the code is written to
    let buffer ← writeBuffer im s.buffer (s.gJitMem.jitCode &&& ~~~3#32)
      (codeBytes (vm.translation im))
    some { s with
      buffer := buffer
      vm := Function.update s.vm v { vm with jitFunc := s.gJitMem.jitCode ||| 1#32, jmem := true } }
  else none

def genAll (im : Image) (s : JitState V) (vs : List V) : Option (JitState V) :=
  vs.foldlM (genJitCode im) s

/-- The byte of `jit_buffer` at an address. -/
def byteAt (im : Image) (s : JitState V) (a : ℕ) : Option (BitVec 8) :=
  if im.jitBuffer.toNat ≤ a ∧ a < im.jitBuffer.toNat + jitBufferSize then
    some (s.buffer (a - im.jitBuffer.toNat))
  else none

/-- The first bytes at `jit_func`, whose lowest bit selects the Thumb state. -/
def jitBytes (im : Image) (s : JitState V) (v : V) (n : ℕ) : List (Option (BitVec 8)) :=
  (List.range n).map fun i => byteAt im s (((s.vm v).jitFunc &&& ~~~1#32).toNat + i)

/-- The bytes at `jit_func` are the code of the machine's own program. -/
def HoldsCode (im : Image) (s : JitState V) (v : V) : Prop :=
  let bytes := codeBytes ((s.vm v).translation im)
  jitBytes im s v bytes.length = bytes.map some

/-! ### One call -/

/-- The translation of a machine stays in the two arrays. The code starts at
an address that is rounded down, so `jit_buffer` has to be aligned. -/
def JitVm.Fits (im : Image) (vm : JitVm) : Prop :=
  im.jitBuffer.toNat % 4 = 0 ∧ InMemory (vm.input im) (clearedTable im)

def compiled (im : Image) (s : JitState V) (v : V) : JitState V where
  buffer := fun i => (codeBytes ((s.vm v).translation im)).getD i 0
  gJitMem := { jitCode := im.jitBuffer, codeSize := jitBufferSize, jmpOffsets := im.offsetMem }
  vm := Function.update s.vm v { s.vm v with jitFunc := im.jitBuffer ||| 1#32, jmem := true }

theorem codeBytes_length (code : Code) : (codeBytes code).length = 2 * code.length := by
  induction code with
  | nil => rfl
  | cons hw code ih =>
      rw [codeBytes, List.flatMap_cons, List.length_append, ← codeBytes, ih, List.length_cons]
      simp only [List.length_cons, List.length_nil]
      omega

/-- The code is written from the start of the buffer or not at all. -/
theorem writeBuffer_zero (bytes : List (BitVec 8)) :
    writeBuffer im (fun _ => 0) (im.jitBuffer &&& ~~~3#32) bytes =
      if im.jitBuffer.toNat % 4 = 0 ∧ bytes.length ≤ jitBufferSize then
        some fun i => bytes.getD i 0
      else none := by
  have hround := toNat_and_not_three im.jitBuffer
  unfold writeBuffer
  by_cases halign : im.jitBuffer.toNat % 4 = 0
  · have hstart : ((im.jitBuffer &&& ~~~3#32).toNat : ℤ) - im.jitBuffer.toNat = 0 := by omega
    simp only [hstart, halign, true_and, zero_add, Nat.cast_le, Nat.cast_lt, le_refl,
      Int.natCast_nonneg, Int.toNat_zero, Nat.sub_zero]
    congr 2
    funext i
    by_cases hi : i < bytes.length
    · rw [if_pos hi]
    · rw [if_neg hi, List.getD_eq_default _ _ (by omega)]
  · have hneg : ¬(0 : ℤ) ≤ ((im.jitBuffer &&& ~~~3#32).toNat : ℤ) - im.jitBuffer.toNat := by omega
    rw [if_neg fun h => hneg h.1, if_neg fun h => halign h.1]

/-- The call is defined if the translation stays in the arrays. -/
theorem genJitCode_eq_some_iff :
    genJitCode im s v = some s' ↔ (s.vm v).Fits im ∧ s' = compiled im s v := by
  have hlen : (codeBytes ((s.vm v).translation im)).length =
      2 * (jitCompile ((s.vm v).input im) (clearedTable im)).code.length := codeBytes_length _
  have hvm : (if (s.vm v).jmem then jitMemFree s else s).vm = s.vm := by
    split <;> rfl
  simp only [genJitCode, jitMemAllocate, hvm, writeBuffer_zero, hlen, JitVm.Fits]
  split
  · rename_i hslots
    split
    · rename_i hfits
      have hin : InMemory ((s.vm v).input im) (clearedTable im) := ⟨hslots, hfits.2⟩
      simp only [Option.bind_eq_bind, Option.bind_some, Option.some.injEq, hfits.1, hin,
        true_and]
      exact eq_comm
    · rename_i hfits
      have hout : ¬(im.jitBuffer.toNat % 4 = 0 ∧ InMemory ((s.vm v).input im) (clearedTable im)) :=
        fun h => hfits ⟨h.1, h.2.code⟩
      simp [hout]
  · rename_i hslots
    have hout : ¬InMemory ((s.vm v).input im) (clearedTable im) := fun h => hslots h.slots
    simp [hout]

@[simp] theorem compiled_input (u : V) :
    ((compiled im s v).vm u).input im = (s.vm u).input im := by
  unfold compiled
  by_cases h : u = v
  · subst h
    simp [JitVm.input]
  · simp [Function.update_of_ne h]

theorem compiled_translation (u : V) :
    ((compiled im s v).vm u).translation im = (s.vm u).translation im := by
  rw [JitVm.translation, compiled_input, ← JitVm.translation]

/-! ### Sequences of calls -/

/-- What a sequence of calls leaves unchanged, and what it makes of the
machines it compiles. -/
structure Compiles (im : Image) (s : JitState V) (vs : List V) (s' : JitState V) : Prop where
  input : ∀ u, (s'.vm u).input im = (s.vm u).input im
  fits : ∀ u ∈ vs, (s.vm u).Fits im
  jitFunc : ∀ u ∈ vs, (s'.vm u).jitFunc = im.jitBuffer ||| 1#32

omit [DecidableEq V] in
theorem Compiles.nil : Compiles im s [] s :=
  ⟨fun _ => rfl, by simp, by simp⟩

theorem Compiles.step {vs : List V} (h : Compiles im s vs s') (hv : (s'.vm v).Fits im) :
    Compiles im s (vs ++ [v]) (compiled im s' v) := by
  have hfits : (s.vm v).Fits im := by
    unfold JitVm.Fits
    rw [← h.input v]
    exact hv
  constructor
  · intro u
    rw [compiled_input, h.input]
  · intro u hu
    rcases List.mem_append.mp hu with hu | hu
    · exact h.fits u hu
    · rw [List.mem_singleton.mp hu]
      exact hfits
  · intro u hu
    by_cases heq : u = v
    · subst heq
      simp [compiled]
    · have hmem : u ∈ vs := by simpa [heq] using hu
      simpa [compiled, Function.update_of_ne heq] using h.jitFunc u hmem

theorem genAll_concat (vs : List V) :
    genAll im s (vs ++ [v]) = (genAll im s vs).bind fun t => genJitCode im t v := by
  simp [genAll, List.foldlM_append]

/-- A sequence of calls is defined if all the translations stay in the
arrays, and does what `Compiles` says. -/
theorem genAll_compiles (vs : List V) (hfits : ∀ u ∈ vs, (s.vm u).Fits im) :
    ∃ s', genAll im s vs = some s' ∧ Compiles im s vs s' := by
  induction vs using List.reverseRecOn with
  | nil => exact ⟨s, rfl, .nil⟩
  | append_singleton vs v ih =>
      obtain ⟨t, ht, hc⟩ := ih fun u hu => hfits u (by simp [hu])
      have hv : (t.vm v).Fits im := by
        unfold JitVm.Fits
        rw [hc.input v]
        exact hfits v (by simp)
      refine ⟨compiled im t v, ?_, hc.step hv⟩
      rw [genAll_concat, ht, Option.bind_some, genJitCode_eq_some_iff]
      exact ⟨hv, rfl⟩

theorem Compiles.of_genAll {vs : List V} (h : genAll im s vs = some s') : Compiles im s vs s' := by
  induction vs using List.reverseRecOn generalizing s' with
  | nil =>
      cases h
      exact .nil
  | append_singleton vs v ih =>
      rw [genAll_concat, Option.bind_eq_some_iff] at h
      obtain ⟨t, ht, hv⟩ := h
      obtain ⟨hfits, rfl⟩ := genJitCode_eq_some_iff.mp hv
      exact (ih ht).step hfits

/-- After any sequence of calls the buffer holds the code of the machine
compiled last, and every compiled machine runs it. -/
theorem genAll_last {vs : List V} (h : genAll im s (vs ++ [v]) = some s') :
    (∀ u ∈ vs ++ [v], (s'.vm u).jitFunc = im.jitBuffer ||| 1#32) ∧
      ∀ i, s'.buffer i = (codeBytes ((s.vm v).translation im)).getD i 0 := by
  refine ⟨(Compiles.of_genAll h).jitFunc, fun i => ?_⟩
  rw [genAll_concat, Option.bind_eq_some_iff] at h
  obtain ⟨t, ht, hv⟩ := h
  obtain ⟨-, rfl⟩ := genJitCode_eq_some_iff.mp hv
  have hsame : (t.vm v).translation im = (s.vm v).translation im := by
    rw [JitVm.translation, (Compiles.of_genAll ht).input, ← JitVm.translation]
  rw [compiled, hsame]

/-! ### Two machines -/

omit [DecidableEq V] in
theorem holdsCode_iff (hfunc : (s.vm v).jitFunc = im.jitBuffer ||| 1#32)
    (hfits : (s.vm v).Fits im) {bytes : List (BitVec 8)}
    (hbuffer : ∀ i, s.buffer i = bytes.getD i 0) :
    HoldsCode im s v ↔ ∀ i < (codeBytes ((s.vm v).translation im)).length,
      bytes.getD i 0 = (codeBytes ((s.vm v).translation im)).getD i 0 := by
  have hsize : (codeBytes ((s.vm v).translation im)).length ≤ jitBufferSize := by
    rw [codeBytes_length]
    exact hfits.2.code
  have hstart : ((im.jitBuffer ||| 1#32) &&& ~~~1#32).toNat = im.jitBuffer.toNat := by
    rw [or_one_and_not_one, toNat_and_not_one]
    have := hfits.1
    omega
  have hbyte : ∀ i < (codeBytes ((s.vm v).translation im)).length,
      byteAt im s (im.jitBuffer.toNat + i) = some (bytes.getD i 0) := by
    intro i hi
    rw [byteAt, if_pos (by omega), Nat.add_sub_cancel_left, hbuffer]
  unfold HoldsCode jitBytes
  rw [hfunc, hstart]
  constructor
  · intro h i hi
    have hget := congrArg (fun l => l[i]?) h
    simp only [List.getElem?_map, List.getElem?_range hi, Option.map_some, hbyte i hi] at hget
    rw [List.getElem?_eq_getElem hi, Option.map_some] at hget
    rw [List.getD_eq_getElem _ _ hi]
    simpa using hget
  · intro h
    apply List.ext_getElem
    · simp
    · intro i hi hi'
      have hlt : i < (codeBytes ((s.vm v).translation im)).length := by simpa using hi'
      rw [List.getElem_map, List.getElem_map, List.getElem_range, hbyte i hlt, h i hlt,
        List.getD_eq_getElem _ _ hlt]

/-- Two lists that agree up to zeros behind them, and end in other bytes. -/
theorem eq_of_getD_eq {a b : List (BitVec 8)} (ha : ∀ i < a.length, b.getD i 0 = a.getD i 0)
    (hb : ∀ i < b.length, a.getD i 0 = b.getD i 0) (hlast : a.getD (a.length - 1) 0 ≠ 0)
    (hlast' : b.getD (b.length - 1) 0 ≠ 0) : a = b := by
  have hlen : a.length = b.length := by
    rcases Nat.lt_trichotomy a.length b.length with h | h | h
    · exact absurd (hb (b.length - 1) (by omega) ▸ List.getD_eq_default _ _ (by omega)) hlast'
    · exact h
    · exact absurd (ha (a.length - 1) (by omega) ▸ List.getD_eq_default _ _ (by omega)) hlast
  apply List.ext_getElem hlen
  intro i hi hi'
  have hget := hb i hi'
  rwa [List.getD_eq_getElem _ _ hi, List.getD_eq_getElem _ _ hi'] at hget

theorem halfword_ext {x y : BitVec 16} (hlo : x.setWidth 8 = y.setWidth 8)
    (hhi : (x >>> 8).setWidth 8 = (y >>> 8).setWidth 8) : x = y := by
  have hlo := congrArg BitVec.toNat hlo
  have hhi := congrArg BitVec.toNat hhi
  simp only [BitVec.toNat_setWidth, BitVec.toNat_ushiftRight, Nat.shiftRight_eq_div_pow] at hlo hhi
  have hx := x.isLt
  have hy := y.isLt
  exact BitVec.eq_of_toNat_eq (by omega)

theorem codeBytes_injective : Function.Injective codeBytes := by
  intro a
  induction a with
  | nil =>
      intro b h
      have hlen := congrArg List.length h
      rw [codeBytes_length, codeBytes_length, List.length_nil] at hlen
      exact (List.length_eq_zero_iff.mp (by omega)).symm
  | cons hw a ih =>
      intro b h
      cases b with
      | nil => cases h
      | cons hw' b =>
          simp only [codeBytes, List.flatMap_cons, List.cons_append, List.nil_append,
            List.cons.injEq] at h
          obtain ⟨hlo, hhi, htail⟩ := h
          rw [halfword_ext hlo hhi, ih htail]

theorem translation_last (vm : JitVm) :
    (codeBytes (vm.translation im)).getD ((codeBytes (vm.translation im)).length - 1) 0 ≠ 0 := by
  have hsplit : codeBytes (vm.translation im) =
      codeBytes (jitCompile (vm.input im) (clearedTable im)).second.code ++
        codeBytes buildEpilogue := by
    rw [JitVm.translation, Compiled.code]
    simp only [codeBytes, List.flatMap_append]
  have hepilogue : codeBytes buildEpilogue =
      [0x4f, 0xea, 0x0b, 0x0d, 0xbd, 0xe8, 0xf0, 0x8b] := by decide
  rw [hsplit, hepilogue, List.length_append, List.getD_append_right _ _ _ _ (by simp)]
  simp

theorem genAll_translation {vs : List V} (h : genAll im s vs = some s') (u : V) :
    (s'.vm u).translation im = (s.vm u).translation im := by
  rw [JitVm.translation, (Compiles.of_genAll h).input, ← JitVm.translation]

/-- A machine compiled before `v` holds its code after `v` was compiled, if
the two codes agree up to the cleared bytes. -/
theorem genAll_holdsCode_iff (vs : List V) {u v : V} (h : genAll im s (vs ++ [v]) = some s')
    (hu : u ∈ vs) :
    HoldsCode im s' u ↔ ∀ i < (codeBytes ((s.vm u).translation im)).length,
      (codeBytes ((s.vm v).translation im)).getD i 0 =
        (codeBytes ((s.vm u).translation im)).getD i 0 := by
  have hc := Compiles.of_genAll h
  obtain ⟨hfunc, hbuffer⟩ := genAll_last h
  have hfits : (s'.vm u).Fits im := by
    unfold JitVm.Fits
    rw [hc.input u]
    exact hc.fits u (by simp [hu])
  rw [holdsCode_iff (hfunc u (by simp [hu])) hfits hbuffer, genAll_translation h]

/-- Compiling one machine leaves the others alone: after `v₁` and then `v₂`,
the bytes at the `jit_func` of `v₁` are its code, and compiling `v₁` again
does not change what `v₂` has. -/
def CompilesApart (im : Image) (s : JitState V) (v₁ v₂ : V) : Prop :=
  (∃ t, genAll im s [v₁, v₂] = some t ∧ HoldsCode im t v₁) ∧
    ∃ t, genAll im s [v₁, v₂, v₁] = some t ∧ HoldsCode im t v₂

theorem CompilesApart.translation_eq {v₁ v₂ : V} (h : CompilesApart im s v₁ v₂) :
    (s.vm v₁).translation im = (s.vm v₂).translation im := by
  obtain ⟨⟨t, ht, hone⟩, ⟨t', ht', htwo⟩⟩ := h
  rw [genAll_holdsCode_iff [v₁] ht (by simp)] at hone
  rw [genAll_holdsCode_iff [v₁, v₂] ht' (by simp)] at htwo
  exact codeBytes_injective
    (eq_of_getD_eq hone htwo (translation_last _) (translation_last _))

/-- Compiling is apart exactly when both translations stay in the arrays and
are the same. -/
theorem compilesApart_iff (im : Image) (s : JitState V) (v₁ v₂ : V) :
    CompilesApart im s v₁ v₂ ↔
      (s.vm v₁).Fits im ∧ (s.vm v₂).Fits im ∧
        (s.vm v₁).translation im = (s.vm v₂).translation im := by
  constructor
  · intro h
    obtain ⟨⟨t, ht, -⟩, -⟩ := id h
    have hfits := (Compiles.of_genAll ht).fits
    exact ⟨hfits v₁ (by simp), hfits v₂ (by simp), h.translation_eq⟩
  · rintro ⟨hfits₁, hfits₂, heq⟩
    have hfits : ∀ u ∈ [v₁, v₂, v₁], (s.vm u).Fits im := by simp [hfits₁, hfits₂]
    obtain ⟨t, ht, -⟩ := genAll_compiles [v₁, v₂] fun u hu => hfits u (by
      rcases List.mem_pair.mp hu with rfl | rfl <;> simp)
    obtain ⟨t', ht', -⟩ := genAll_compiles [v₁, v₂, v₁] hfits
    refine ⟨⟨t, ht, ?_⟩, ⟨t', ht', ?_⟩⟩
    · rw [genAll_holdsCode_iff [v₁] ht (by simp), heq]
      exact fun _ _ => rfl
    · rw [genAll_holdsCode_iff [v₁, v₂] ht' (by simp), heq]
      exact fun _ _ => rfl

end Gen

/-- A machine with the program `r0 = n; exit`. -/
def returnConst (n : BitVec 32) : JitVm where
  insts := fun i =>
    { opcode := if i = 0 then (Opcode.alu64 .mov .imm).byte else Opcode.exit.byte
      dst := 0, src := 0, offset := 0, imm := n }
  numInsts := 2
  extFuncs := fun _ => 0
  jitFunc := 0
  jmem := false

def alignedImage : Image where
  jitBuffer := 0x20000000
  offsetMem := 0x20000800
  around := fun _ => 0
  behind := (0, 0)

def twoConsts : JitState Bool where
  buffer := fun _ => 0
  gJitMem := { jitCode := 0, codeSize := 0, jmpOffsets := 0 }
  vm := fun v => if v then returnConst 8 else returnConst 7

theorem twoConsts_share_code :
    ((twoConsts.vm false).Fits alignedImage ∧ (twoConsts.vm true).Fits alignedImage) ∧
      ¬CompilesApart alignedImage twoConsts false true := by
  have hfits : ∀ v, (twoConsts.vm v).Fits alignedImage := by
    intro v
    refine ⟨by decide, ?_, ?_⟩ <;> cases v <;> decide
  refine ⟨⟨hfits false, hfits true⟩, fun h => ?_⟩
  have hne : (twoConsts.vm false).translation alignedImage ≠
      (twoConsts.vm true).translation alignedImage := by decide
  exact hne h.translation_eq

/-! ### Failures -/

/-- `build_inst` knows the opcode and does not return `-1`. -/
def Accepted (i : Inst) : Prop := i.op ≠ .unknown ∧ 0 ≤ instRet i

section Failure

variable {V : Type} [DecidableEq V] {im : Image} {s s' : JitState V} {v : V} {p : Input}

/-- An instruction that is not accepted leaves no code. -/
theorem buildInst_code_of_not_accepted {pc : ℕ} (h : ¬Accepted (p.insts pc)) (pass : Pass)
    (idx : ℕ) : (buildInst p pass idx pc).code = [] := by
  have hshift : ∀ base dst, ¬0 ≤ (if (p.insts pc).imm.toInt > 31 then (-1 : ℤ) else 0) →
      (buildShiftImm base dst (p.insts pc).imm).code = [] := by
    intro base dst hneg
    split at hneg
    · rename_i hbig
      rw [buildShiftImm, if_pos hbig]
    · exact absurd le_rfl hneg
  unfold Accepted at h
  cases hop : (p.insts pc).op with
  | unknown => simp [buildInst, hop, built]
  | le | be => simp [buildInst, hop]
  | alu op source =>
      simp only [hop, ne_eq, reduceCtorEq, not_false_eq_true, true_and, instRet] at h
      cases op <;> cases source <;> simp only [le_refl, not_true_eq_false] at h <;>
        · simp only [buildInst, hop, buildAlu32]
          exact hshift _ _ h
  | _ => simp [instRet, hop] at h

/-- Nothing in the code at `jit_func` comes from an instruction that was not
accepted, nor, if it failed, from those behind it. -/
theorem genJitCode_drops (h : genJitCode im s v = some s') {l r : List ℕ} {pc : ℕ}
    (hsplit : visited ((s.vm v).input im) = l ++ pc :: r)
    (hrejected : ¬Accepted ((s.vm v).insts pc)) :
    HoldsCode im s' v ∧
      (secondState ((s.vm v).input im) (clearedTable im) (l ++ [pc])).code =
        (secondState ((s.vm v).input im) (clearedTable im) l).code ∧
      (instRet ((s.vm v).insts pc) < 0 → r = []) := by
  obtain ⟨hfits, rfl⟩ := genJitCode_eq_some_iff.mp h
  refine ⟨?_, ?_, fun hfail => ?_⟩
  · have hfits' : ((compiled im s v).vm v).Fits im := by
      unfold JitVm.Fits
      rwa [compiled_input]
    rw [holdsCode_iff (by simp [compiled]) hfits' fun _ => rfl, compiled_translation]
    exact fun _ _ => rfl
  · rw [secondState_concat_code, secondCode, buildInst_code_of_not_accepted hrejected,
      List.append_nil]
  · rcases r with _ | ⟨q, r⟩
    · rfl
    · have hok : 0 ≤ instRet ((s.vm v).insts pc) := (next_of_split hsplit).2
      omega

/-- A failure is visible to the caller: it gets no `jit_func`. The call
returns nothing, and `ebpf_vm` has no `err_line`. -/
def ReportsFailure (im : Image) (s : JitState V) (v : V) : Prop :=
  (∃ pc ∈ visited ((s.vm v).input im), ¬Accepted ((s.vm v).insts pc)) →
    ∃ s', genJitCode im s v = some s' ∧ (s'.vm v).jitFunc = 0

theorem genJitCode_jitFunc_ne (h : genJitCode im s v = some s') : (s'.vm v).jitFunc ≠ 0 := by
  obtain ⟨-, rfl⟩ := genJitCode_eq_some_iff.mp h
  intro hzero
  have hbit := congrArg (fun x : BitVec 32 => x.getLsbD 0) hzero
  simp [compiled] at hbit

/-- Failures are visible exactly when there are none. -/
theorem reportsFailure_iff (im : Image) (s : JitState V) (v : V) :
    ReportsFailure im s v ↔
      ∀ pc ∈ visited ((s.vm v).input im), Accepted ((s.vm v).insts pc) := by
  constructor
  · intro h pc hpc
    by_contra hrejected
    obtain ⟨s', hs', hzero⟩ := h ⟨pc, hpc, hrejected⟩
    exact genJitCode_jitFunc_ne hs' hzero
  · rintro h ⟨pc, hpc, hrejected⟩
    exact absurd (h pc hpc) hrejected

end Failure

/-- A machine with the program `le r0; r0 = 7; exit`. -/
def swapFirst : JitVm where
  insts := fun i =>
    { opcode :=
        if i = 0 then Opcode.le.byte
        else if i = 1 then (Opcode.alu64 .mov .imm).byte
        else Opcode.exit.byte
      dst := 0, src := 0, offset := 0, imm := 7 }
  numInsts := 3
  extFuncs := fun _ => 0
  jitFunc := 0
  jmem := false

/-- The translation of `le r0; r0 = 7; exit` ends before its first
instruction. The machine still gets a `jit_func`, with nothing between the
prologue and the epilogue. -/
theorem swapFirst_silent :
    (swapFirst.Fits alignedImage ∧
        swapFirst.translation alignedImage =
          buildPrologue (swapFirst.input alignedImage) ++ buildEpilogue) ∧
      ¬ReportsFailure alignedImage { twoConsts with vm := fun _ => swapFirst } false := by
  have hvisited : visited (swapFirst.input alignedImage) = [0] := by decide
  refine ⟨⟨⟨by decide, by decide, by decide⟩, by decide⟩, fun h => ?_⟩
  have hfails : ∃ pc ∈ visited (swapFirst.input alignedImage), ¬Accepted (swapFirst.insts pc) :=
    ⟨0, by simp [hvisited], fun hok => absurd hok.2 (by decide)⟩
  obtain ⟨s', hs', hzero⟩ := h hfails
  exact genJitCode_jitFunc_ne hs' hzero

end RapidPatch.Jit
