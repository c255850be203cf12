import RapidPatch.Jit.Loads
import RapidPatch.Jit.Stores

/-!
What `is_ldst_imm` admits and what the encoders can hold.

The test lets offsets of twelve bits through for bytes and words, and of
eight for halfwords, of either sign. Each emitter is looked at by itself:
`Accesses` says that its code is one load or store of the size it stands for,
at the offset it was given, and leaves the base register alone.
`accesses_emitted_iff` gives for each the offsets that do.
-/

namespace RapidPatch.Jit

open RapidPatch.Vm RapidPatch.Thumb RapidPatch.Support

/-! ### Accesses without write-back -/

/-- A load or a store as the translator means it. -/
structure Access where
  isLoad : Bool
  bytes : ℕ
  rt : Reg
  rn : Reg
  off : Word
  deriving DecidableEq

def signedOff (add : Bool) (imm : ℕ) : Word :=
  if add then BitVec.ofNat 32 imm else -BitVec.ofNat 32 imm

/-- The unsigned loads and the stores that address the base register plus an
offset and do not write it back. -/
def accessOf : Data → Option Access
  | .ldr rt rn below => some ⟨true, 4, rt, rn, signedOff false below⟩
  | .str rt rn below => some ⟨false, 4, rt, rn, signedOff false below⟩
  | .load bytes false rt rn ⟨true, add, false, imm⟩ => some ⟨true, bytes, rt, rn, signedOff add imm⟩
  | .store bytes rt rn ⟨true, add, false, imm⟩ => some ⟨false, bytes, rt, rn, signedOff add imm⟩
  | _ => none

/-- The halfwords are one instruction, which is that access. -/
def Accesses (code : Code) (a : Access) : Prop := ∃ d, Decodes code [d] ∧ accessOf d = some a

theorem signedOff_eq (add : Bool) (k : BitVec 8) : signedOff add k.toNat = accessOff add k := by
  rw [signedOff, accessOff, BitVec.ofNat_toNat]

theorem accessOf_accessData (isLoad : Bool) (size : Fin 3) (rn rt : Reg) (index add wback : Bool)
    (imm : ℕ) :
    accessOf (accessData isLoad size rn rt ⟨index, add, wback, imm⟩) =
      if index && !wback then some ⟨isLoad, 2 ^ size.val, rt, rn, signedOff add imm⟩ else none := by
  cases isLoad <;> cases index <;> cases wback <;> rfl

/-! ### One instruction -/

theorem decodes_emit4_iff {x : BitVec 32} {d : Data} :
    Decodes (emit4 x) [d] ↔ decode32 x = some (.data d) := by
  constructor
  · intro h
    generalize hcode : emit4 x = code at h
    cases h with
    | narrow _ _ h => cases h; cases hcode
    | wide _ hd h =>
        cases h
        cases hcode
        rwa [halfwords] at hd
    | it _ _ h => cases h; cases hcode
  · intro hd
    exact .wide (isWide_of_decode32 hd) (by rwa [halfwords]) .nil

theorem decodes_emit2_iff {x : BitVec 16} {d : Data} :
    Decodes (emit2 x) [d] ↔ isWide x = false ∧ decode16 x = some (.data d) := by
  constructor
  · intro h
    generalize hcode : emit2 x = code at h
    cases h with
    | narrow hsize hd h =>
        cases h
        cases hcode
        exact ⟨hsize, hd⟩
    | wide _ _ h => cases h; cases hcode
    | it _ _ h => cases h; cases hcode
  · rintro ⟨hsize, hd⟩
    exact .narrow hsize hd .nil

theorem accesses_emit4_iff {x : BitVec 32} {d : Data} (hd : decode32 x = some (.data d))
    {a : Access} : Accesses (emit4 x) a ↔ accessOf d = some a := by
  constructor
  · rintro ⟨d', hd', ha⟩
    rw [decodes_emit4_iff, hd, Option.some.injEq, Instr.data.injEq] at hd'
    rwa [hd']
  · intro ha
    exact ⟨d, decodes_emit4_iff.mpr hd, ha⟩

theorem accesses_emit2_iff {x : BitVec 16} {d : Data} (hd : decode16 x = some (.data d))
    {a : Access} : Accesses (emit2 x) a ↔ accessOf d = some a := by
  constructor
  · rintro ⟨d', hd', ha⟩
    have heq := (decodes_emit2_iff.mp hd').2
    rw [hd, Option.some.injEq, Instr.data.injEq] at heq
    rwa [heq]
  · intro ha
    exact ⟨d, decodes_emit2_iff.mpr ⟨isWide_of_decode16 hd, hd⟩, ha⟩

/-! ### The forms of the encoding -/

section Forms

variable (isLoad : Bool) (size : Fin 3) {rn rt : Reg} (hn : rn ≠ 15) (ht : badReg rt = false)

include hn ht

theorem accesses_accessWord12_iff (k : BitVec 12) {a : Access} :
    Accesses (emit4 (accessWord isLoad true size rn rt k)) a ↔
      a = ⟨isLoad, 2 ^ size.val, rt, rn, k.setWidth 32⟩ := by
  rw [accesses_emit4_iff (decode_access12 isLoad size hn ht k), accessOf_accessData, signedOff,
    BitVec.ofNat_toNat]
  simp [eq_comm]

/-- Of the eight modes the two with an index and no write-back are the ones
that are meant. -/
theorem accesses_accessWord_iff (index add wback : Bool) (k : BitVec 8) {a : Access} :
    Accesses (emit4 (accessWord isLoad false size rn rt (modeBits index add wback ++ k))) a ↔
      (index = true ∧ wback = false) ∧
        a = ⟨isLoad, 2 ^ size.val, rt, rn, accessOff add k⟩ := by
  have hdecode := decode_access isLoad size hn ht index add wback k
  have hmode : ∀ index add wback : Bool, modeBits index add wback = 0b1100 →
      index = true ∧ add = false ∧ wback = false := by decide
  have hnone (h : decode32 (accessWord isLoad false size rn rt
      (modeBits index add wback ++ k)) = none) :
      ¬Accesses (emit4 (accessWord isLoad false size rn rt (modeBits index add wback ++ k))) a := by
    rintro ⟨d, hd, -⟩
    rw [decodes_emit4_iff, h] at hd
    cases hd
  by_cases hspecial : size = 2 ∧ modeBits index add wback = 0b1100
  · obtain ⟨rfl, hm⟩ := hspecial
    obtain ⟨rfl, rfl, rfl⟩ := hmode _ _ _ hm
    rw [if_pos ⟨rfl, hm⟩] at hdecode
    cases isLoad <;> rw [accesses_emit4_iff hdecode] <;> simp [accessOf, signedOff_eq, eq_comm]
  rw [if_neg hspecial] at hdecode
  by_cases hundef : (!index && !wback) = true
  · rw [if_pos hundef] at hdecode
    refine iff_of_false (hnone hdecode) ?_
    rintro ⟨⟨rfl, -⟩, -⟩
    cases hundef
  rw [if_neg hundef] at hdecode
  by_cases hbase : (wback && decide (rn = rt)) = true
  · rw [if_pos hbase] at hdecode
    refine iff_of_false (hnone hdecode) ?_
    rintro ⟨⟨-, rfl⟩, -⟩
    cases hbase
  rw [if_neg hbase] at hdecode
  rw [accesses_emit4_iff hdecode, accessOf_accessData, signedOff_eq]
  simp only [Option.ite_none_right_eq_some, Bool.and_eq_true, Bool.not_eq_true',
    Option.some.injEq]
  exact and_congr_right fun _ => eq_comm

end Forms

theorem accesses_accessHalf_iff {op k : BitVec 5} {n t : BitVec 3} {bytes : ℕ}
    (hd : decode16 (accessHalf op k n t) =
      some (.data (.load bytes false (lowReg t) (lowReg n) ⟨true, true, false, bytes * k.toNat⟩)))
    {a : Access} :
    Accesses (emit2 (accessHalf op k n t)) a ↔
      a = ⟨true, bytes, lowReg t, lowReg n, BitVec.ofNat 32 (bytes * k.toNat)⟩ := by
  rw [accesses_emit2_iff hd, accessOf, Option.some.injEq, eq_comm]
  rfl

/-! ### The emitters -/

/-- The registers the translator keeps values and addresses in. -/
def IsValueReg (r : Reg) : Prop := r < 10 ∨ r = 11

instance (r : Reg) : Decidable (IsValueReg r) := inferInstanceAs (Decidable (_ ∨ _))

theorem IsValueReg.good {r : Reg} (h : IsValueReg r) : badReg r = false ∧ r ≠ 15 := by
  revert r
  decide

/-- Where `_emit_ldrb_i` is right: the 16-bit form has no sign, and the last
form no room for one. -/
def LdrbFits (rt rn : Reg) (off : Word) : Prop :=
  0 ≤ off.toInt ∨ -255 ≤ off.toInt ∧ (off.toInt < -31 ∨ 8 ≤ rt ∨ 8 ≤ rn)

/-- Between two low registers the sign of a short offset makes the code half
an instruction. -/
theorem accesses_ldrb_low {rt rn : Reg} (ht : rt < 8) (hn : rn < 8) {off : Word}
    (h : within off 31 = true) :
    Accesses (emit2 (thumb16LdrbImmT1 rt.toNat rn.toNat off)) ⟨true, 1, rt, rn, off⟩ ↔
      0 ≤ off.toInt := by
  have hrange := within_iff.mp h
  by_cases h0 : 0 ≤ off.toInt
  · have hk : off.toNat < 32 := toNat_lt_of_toInt h0 (by omega)
    have hoff : BitVec.ofNat 32 (1 * (off.setWidth 5).toNat) = off := by
      apply BitVec.eq_of_toNat_eq
      rw [BitVec.toNat_ofNat, BitVec.toNat_setWidth]
      omega
    rw [encode_ldrb16 ht hn hk, accesses_accessHalf_iff (decode_ldrb16 _ _ _),
      (lowReg_setWidth rt ht).1, (lowReg_setWidth rn hn).1, hoff]
    exact iff_of_true rfl h0
  · refine iff_of_false ?_ h0
    rintro ⟨d, hd, -⟩
    have hwide := @isWide_ldrb16 rt.toNat rn.toNat off (by omega) (by omega)
    rw [(decodes_emit2_iff.mp hd).1] at hwide
    cases hwide

/-- The 16-bit halfword load: what is not low of a register spills into the
field behind it. -/
theorem encode_ldrh_spill (rt rn : Reg) (off : Word) :
    (0x8800 ||| (off &&& 0b11111) <<< 6 ||| regField rn.toNat 3 |||
        regField rt.toNat 0 : Word).setWidth 16 =
      accessHalf 0b10001 (off.setWidth 5 ||| (rn >>> 3).setWidth 5)
        (rn.setWidth 3 ||| (rt >>> 3).setWidth 3) (rt.setWidth 3) := by
  rw [regField_toNat, regField_toNat]
  apply BitVec.eq_of_getLsbD_eq
  intro i hi
  simp only [accessHalf, BitVec.getLsbD_append]
  interval_cases i <;> simp

/-- A halfword load of five bits of offset counts it in halfwords, so only zero
is right; and it has no other than low registers. -/
theorem accesses_ldrh_short {rt rn : Reg} {off : Word} (h : within off 31 = true) :
    Accesses (emit2 ((0x8800 ||| (off &&& 0b11111) <<< 6 ||| regField rn.toNat 3 |||
        regField rt.toNat 0 : Word).setWidth 16)) ⟨true, 2, rt, rn, off⟩ ↔
      off = 0 ∧ rt < 8 ∧ rn < 8 := by
  have hlow : ∀ r : Reg, r = lowReg (r.setWidth 3) ↔ r < 8 := by decide
  have hreg : ∀ r : Reg, r < 8 → ∀ n : BitVec 3, n ||| (r >>> 3).setWidth 3 = n := by decide
  have hoff : ∀ r : Reg, r < 8 → ∀ k : BitVec 5, k ||| (r >>> 3).setWidth 5 = k := by decide
  rw [encode_ldrh_spill, accesses_accessHalf_iff (decode_ldrh16 _ _ _)]
  simp only [Access.mk.injEq, true_and, hlow]
  constructor
  · rintro ⟨hrt, hrn, heq⟩
    rw [hreg rt hrt, hlow] at hrn
    rw [hoff rn hrn] at heq
    exact ⟨(scaled_iff h).mp heq.symm, hrt, hrn⟩
  · rintro ⟨hzero, hrt, hrn⟩
    rw [hreg rt hrt, hoff rn hrn]
    exact ⟨hrt, (hlow rn).mpr hrn, ((scaled_iff h).mpr hzero).symm⟩

/-- Where `_emit_ldrh_i` is right. -/
def LdrhFits (rt rn : Reg) (off : Word) : Prop :=
  off = 0 ∧ rt < 8 ∧ rn < 8 ∨ 32 ≤ off.toInt

section Loads

variable {rt rn : Reg} (ht : IsValueReg rt) (hn : IsValueReg rn) {off : Word}

include ht hn

/-- `_emit_ldr_i` is right up to a byte of offset. -/
theorem accesses_ldr_iff (h : within off 0xfff = true) :
    Accesses (emitLdrI rt.toNat rn.toNat off) ⟨true, 4, rt, rn, off⟩ ↔ within off 255 = true := by
  by_cases hzero : off = 0
  · subst hzero
    rw [encode_ldr_zero, accesses_accessWord12_iff true 2 hn.good.2 ht.good.1]
    exact iff_of_true rfl rfl
  · have hlt := magnitude_lt (b := 4095) h (by decide)
    rw [emitLdrI, if_neg hzero, encode_ldr rt rn hzero (by omega),
      accesses_accessWord_iff true 2 hn.good.2 ht.good.1, ← ldrOff]
    constructor
    · rintro ⟨-, ha⟩
      by_contra hbyte
      exact ldrOff_ne hbyte (congrArg Access.off ha).symm
    · intro hbyte
      obtain ⟨hmode, hoff⟩ := ldr_short hbyte
      rw [hoff]
      exact ⟨⟨rfl, hmode⟩, rfl⟩

theorem accesses_ldrb_byte (h : within off 255 = true) :
    Accesses (emit4 (thumb32LdrbImmT3 rt.toNat rn.toNat off)) ⟨true, 1, rt, rn, off⟩ := by
  have hoff : accessOff (decide (off.toInt ≥ 0)) (bits (magnitude off) 0 8) = off := by
    refine accessOff_magnitude h ?_ ?_ <;> intro hsign <;> simp <;> omega
  rw [encode_ldrb rt rn h, accesses_accessWord_iff true 0 hn.good.2 ht.good.1, hoff]
  exact ⟨⟨rfl, rfl⟩, rfl⟩

theorem accesses_ldrb_far (h : within off 0xfff = true) (h0 : 0 ≤ off.toInt) :
    Accesses (emit4 (0xf8900000 ||| regField rn.toNat 16 ||| regField rt.toNat 12 ||| off))
      ⟨true, 1, rt, rn, off⟩ := by
  have hrange := within_iff.mp h
  have hk : off.toNat < 4096 := toNat_lt_of_toInt h0 (by omega)
  have hhead : (accessHead true true 0).setWidth 32 <<< 20 = (0xf8900000 : Word) := by decide
  have hword := access_fields true true 0 rn rt hk
  have hcut : (off.setWidth 12).setWidth 32 = off := by
    apply BitVec.eq_of_toNat_eq
    simp only [BitVec.toNat_setWidth]
    omega
  rw [hhead] at hword
  rw [hword, accesses_accessWord12_iff true 0 hn.good.2 ht.good.1, hcut]
  rfl

theorem accesses_ldrb_iff (h : within off 0xfff = true) :
    Accesses (emitLdrbI rt.toNat rn.toNat off) ⟨true, 1, rt, rn, off⟩ ↔ LdrbFits rt rn off := by
  have hrange := within_iff.mp h
  by_cases hshort : (within off 31 && isLow (rt.toNat : ℤ) && isLow (rn.toNat : ℤ)) = true
  · rw [emitLdrbI, if_pos hshort]
    simp only [isLow_toNat, Bool.and_eq_true, decide_eq_true_eq] at hshort
    obtain ⟨⟨hoff, hrt⟩, hrn⟩ := hshort
    rw [accesses_ldrb_low hrt hrn hoff, LdrbFits, or_iff_left]
    rw [within_iff] at hoff
    rintro ⟨-, hlt | h8 | h8⟩
    · omega
    · exact BitVec.not_le.mpr hrt h8
    · exact BitVec.not_le.mpr hrn h8
  rw [LdrbFits]
  by_cases hbyte : within off 255 = true
  · rw [emitLdrbI, if_neg hshort, if_pos hbyte]
    refine iff_of_true (accesses_ldrb_byte ht hn hbyte) ?_
    simp only [isLow_toNat, Bool.and_eq_true, decide_eq_true_eq, within_iff] at hshort hbyte
    have hlow (r : Reg) : ¬r < 8 ↔ 8 ≤ r := BitVec.not_lt
    rw [← hlow, ← hlow]
    by_contra hno
    push Not at hno
    exact hshort ⟨⟨⟨by omega, by omega⟩, by tauto⟩, by tauto⟩
  · by_cases h0 : 0 ≤ off.toInt
    · rw [emitLdrbI, if_neg hshort, if_neg hbyte, if_pos h]
      exact iff_of_true (accesses_ldrb_far ht hn h h0) (.inl h0)
    · rw [within_iff] at hbyte
      refine iff_of_false ?_ (by omega)
      rintro ⟨d, hd, -⟩
      rw [emitLdrbI, if_neg hshort, if_neg (by rwa [within_iff]), if_pos h] at hd
      exact decode_or_neg (by omega) (by omega) _ d (decodes_emit4_iff.mp hd)

theorem accesses_ldrh_iff (h : within off 255 = true) :
    Accesses (emitLdrhI rt.toNat rn.toNat off) ⟨true, 2, rt, rn, off⟩ ↔ LdrhFits rt rn off := by
  have hrange := within_iff.mp h
  rw [LdrhFits]
  by_cases hshort : within off 31 = true
  · have hshort' := within_iff.mp hshort
    rw [emitLdrhI, if_pos hshort, accesses_ldrh_short hshort, or_iff_left (by omega)]
  · rw [emitLdrhI_wide rt rn hshort h, accesses_accessWord_iff true 1 hn.good.2 ht.good.1,
      accessOff, if_pos rfl, setWidth_bits (toNat_and_byte off)]
    rw [within_iff] at hshort
    have hzero : off ≠ 0 := by
      rintro rfl
      exact hshort (by decide)
    have hbyte := and_byte_eq_iff h
    constructor
    · rintro ⟨-, ha⟩
      have hoff : off = off &&& 0xff := congrArg Access.off ha
      exact .inr (by have := hbyte.mp hoff.symm; omega)
    · rintro (⟨hoff, -⟩ | hoff)
      · exact absurd hoff hzero
      · rw [hbyte.mpr (by omega)]
        exact ⟨⟨rfl, rfl⟩, rfl⟩

end Loads

section Stores

variable {rt rn : Reg} (ht : IsValueReg rt) (hn : IsValueReg rn) {off : Word}

include ht hn

/-- `_emit_str_i` is right for a byte of offset other than zero, which it
writes without an index. -/
theorem accesses_str_iff :
    Accesses (emitStrI rn.toNat rt.toNat off) ⟨false, 4, rt, rn, off⟩ ↔
      off ≠ 0 ∧ within off 255 = true := by
  rw [encode_str, accesses_accessWord_iff false 2 hn.good.2 ht.good.1, ← strOff, ← strOff_eq_iff,
    decide_eq_true_iff, and_iff_left rfl]
  constructor
  · rintro ⟨hne, ha⟩
    exact ⟨hne, (congrArg Access.off ha).symm⟩
  · rintro ⟨hne, hoff⟩
    rw [hoff]
    exact ⟨hne, rfl⟩

/-- The stores of bytes and halfwords always write back. -/
theorem not_accesses_storeT3 {base : Word} {size : Fin 3}
    (hbase : base ||| (0b111 : Word) <<< 8 = (accessHead false false size).setWidth 32 <<< 20 |||
      (modeBits true true true).setWidth 32 <<< 8) (h : within off 0xfff = true) (a : Access) :
    ¬Accesses (emit4 (storeImmT3 base rn.toNat rt.toNat off)) a := by
  have hlt := magnitude_lt (b := 4095) h (by decide)
  rw [encode_storeT3 hbase rn rt (by omega),
    accesses_accessWord_iff false size hn.good.2 ht.good.1]
  rintro ⟨⟨-, hwback⟩, -⟩
  cases hwback

end Stores

/-! ### All sizes -/

def accessSize (size : Fin 3) : Size :=
  match size with
  | 0 => .b
  | 1 => .h
  | 2 => .w

/-- The emitter `emit_ldx_reg` takes for a size. -/
def emitLoad (size : Fin 3) (rt rn : Reg) (off : Word) : Code :=
  match size with
  | 0 => emitLdrbI rt.toNat rn.toNat off
  | 1 => emitLdrhI rt.toNat rn.toNat off
  | 2 => emitLdrI rt.toNat rn.toNat off

/-- The emitter `emit_str_reg` takes for a size, its first register the base. -/
def emitStore (size : Fin 3) (rn rt : Reg) (off : Word) : Code :=
  match size with
  | 0 => emit4 (thumb32StrbImmT3 rn.toNat rt.toNat off)
  | 1 => emit4 (thumb32StrhImmT3 rn.toNat rt.toNat off)
  | 2 => emitStrI rn.toNat rt.toNat off

/-- Where the load is right. -/
def LoadFits (size : Fin 3) (rt rn : Reg) (off : Word) : Prop :=
  match size with
  | 0 => LdrbFits rt rn off
  | 1 => LdrhFits rt rn off
  | 2 => -255 ≤ off.toInt ∧ off.toInt ≤ 255

/-- Where the store is right. -/
def StoreFits (size : Fin 3) (off : Word) : Prop :=
  size = 2 ∧ off ≠ 0 ∧ -255 ≤ off.toInt ∧ off.toInt ≤ 255

/-- The admitted offsets the emitters have an encoding for. -/
theorem accesses_emitted_iff (size : Fin 3) {rt rn : Reg} {off : Word} (ht : IsValueReg rt)
    (hn : IsValueReg rn) (hoff : isLdstImm off (accessSize size) = true) :
    (Accesses (emitLoad size rt rn off) ⟨true, 2 ^ size.val, rt, rn, off⟩ ↔
      LoadFits size rt rn off) ∧
    (Accesses (emitStore size rn rt off) ⟨false, 2 ^ size.val, rt, rn, off⟩ ↔
      StoreFits size off) := by
  match size with
  | 0 =>
      have hnot := @not_accesses_storeT3 rt rn ht hn off 0xf8000800 0 (by decide) hoff
      exact ⟨accesses_ldrb_iff ht hn hoff, iff_of_false (hnot _) fun h => by cases h.1⟩
  | 1 =>
      have hfar : within off 0xfff = true := by
        have hnear := within_iff.mp hoff
        exact within_iff.mpr (by omega)
      have hnot := @not_accesses_storeT3 rt rn ht hn off 0xf8200800 1 (by decide) hfar
      exact ⟨accesses_ldrh_iff ht hn hoff, iff_of_false (hnot _) fun h => by cases h.1⟩
  | 2 =>
      have hload := accesses_ldr_iff ht hn hoff
      have hstore := @accesses_str_iff rt rn ht hn off
      rw [within_iff] at hload hstore
      exact ⟨hload, hstore.trans (and_iff_right rfl).symm⟩

theorem accesses_emitted_iff_word :
    (Accesses (emitLoad 2 4 11 256) ⟨true, 4, 4, 11, 256⟩ ↔ LoadFits 2 4 11 256) ∧
    (Accesses (emitStore 2 11 4 256) ⟨false, 4, 4, 11, 256⟩ ↔ StoreFits 2 256) :=
  @accesses_emitted_iff 2 4 11 256 (by decide) (by decide) (by decide)

/-- Admitted are a byte below and a halfword above a low register, and neither
is loaded from there; a byte store above it is admitted and moves it. -/
theorem not_accesses_admitted :
    isLdstImm (-1) .b = true ∧ ¬Accesses (emitLoad 0 0 1 (-1)) ⟨true, 1, 0, 1, -1⟩ ∧
    isLdstImm 4 .h = true ∧ ¬Accesses (emitLoad 1 0 1 4) ⟨true, 2, 0, 1, 4⟩ ∧
    isLdstImm 4 .b = true ∧ ¬Accesses (emitStore 0 1 0 4) ⟨false, 1, 0, 1, 4⟩ := by
  have ht : IsValueReg 0 := by decide
  have hn : IsValueReg 1 := by decide
  refine ⟨by decide, ?_, by decide, ?_, by decide, ?_⟩
  · intro h
    have hfits := (accesses_ldrb_iff ht hn (by decide)).mp h
    revert hfits
    unfold LdrbFits
    decide
  · intro h
    have hfits := (accesses_ldrh_iff ht hn (by decide)).mp h
    revert hfits
    unfold LdrhFits
    decide
  · exact @not_accesses_storeT3 0 1 ht hn 4 0xf8000800 0 (by decide) (by decide) _

end RapidPatch.Jit
