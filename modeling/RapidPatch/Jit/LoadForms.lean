import RapidPatch.Jit.Access

/-!
The loads `emit_ldx_reg` chooses from.

`LDR` keeps its offset up to a byte; above, bits of it fall into the mode, so
that the address is another one and the base register may change. `LDRB` has
three encodings, of which the 16-bit one has no room for a sign and the last
one takes a negative offset for an opcode. The 16-bit `LDRH` counts its
offset in halfwords, and a base register that is not low spills into it.
-/

namespace RapidPatch.Jit

open RapidPatch.Vm RapidPatch.Thumb RapidPatch.Support

/-! ### Loads of a word -/

/-- The code loads bytes into `rt` and changes at most `rn` besides. -/
def Loads (code : Code) (rt rn : Reg) (n : ℕ) (addr : Core → Word) : Prop :=
  ∀ s, ∃ t, Runs code s t ∧ t.mem = s.mem ∧
    t.r rt = BitVec.ofNat 32 (loadLE s.mem (addr s) n) ∧ ∀ i, i ≠ rt → i ≠ rn → t.r i = s.r i

/-- The offset `LDR` uses: bits 8 and 9 of the magnitude fall into the mode. -/
def ldrAdd (off : Word) : Bool := off.toInt ≥ 0 || (magnitude off).getLsbD 9

def ldrOff (off : Word) : Word := accessOff (ldrAdd off) (bits (magnitude off) 0 8)

theorem ldr_short {off : Word} (h : within off 255 = true) :
    (magnitude off).getLsbD 8 = false ∧ ldrOff off = off := by
  have hlt := magnitude_lt (b := 255) h (by decide)
  have hhigh := bits_high_eq_zero (z := magnitude off) (by omega)
  have hbit : ∀ i < 4, (magnitude off).getLsbD (8 + i) = false := by
    intro i hi
    have := congrArg (·.getLsbD i) hhigh
    simpa [bits, hi] using this
  have hadd : ldrAdd off = decide (off.toInt ≥ 0) := by
    rw [ldrAdd, hbit 1 (by decide), Bool.or_false]
  refine ⟨hbit 0 (by decide), accessOff_magnitude h ?_ ?_⟩ <;> intro hsign <;> rw [hadd] <;>
    simp <;> omega

theorem encode_ldr (rt rn : Reg) {off : Word} (hne : off ≠ 0)
    (hmag : (magnitude off).toNat < 4096) :
    thumb32LdrImmT4 rt.toNat rn.toNat off =
      accessWord true false 2 rn rt (modeBits true (ldrAdd off) ((magnitude off).getLsbD 8) ++
        bits (magnitude off) 0 8) := by
  have hflag : ∀ b : Bool, (0xf8500800 : Word) ||| (bit true 2 ||| bit b 1) <<< 8 =
      (accessHead true false 2).setWidth 32 <<< 20 |||
        (modeBits true b false).setWidth 32 <<< 8 := by
    decide
  have hmode : ∀ (b : Bool) (m : BitVec 4),
      modeBits true b false ||| m = modeBits true (b || m.getLsbD 1) (m.getLsbD 0) := by
    decide
  have hne' : decide (off ≠ 0) = true := by simpa using hne
  have hword := encode_access true 2 rn rt (hflag (off.toInt ≥ 0)) hmag
  rw [← hne'] at hword
  refine hword.trans ?_
  rw [hne', hmode]
  simp [ldrAdd, bits]

theorem encode_ldr_zero (rt rn : Reg) :
    emitLdrI rt.toNat rn.toNat 0 = emit4 (accessWord true true 2 rn rt 0) := by
  have hword := access_fields true true 2 rn rt (show (0 : Word).toNat < 4096 by decide)
  have hhead : (accessHead true true 2).setWidth 32 <<< 20 = (0xf8d00000 : Word) := by decide
  rw [hhead] at hword
  exact congrArg emit4 hword

section Load

variable {rt rn : Reg} (ht : badReg rt = false) (hn : rn ≠ 15)

include ht hn

theorem sets_access12 (size : Fin 3) (k : BitVec 12) :
    Sets (emit4 (accessWord true true size rn rt k)) rt fun s =>
      BitVec.ofNat 32 (loadLE s.mem (s.r rn + k.setWidth 32) (2 ^ size.val)) := by
  refine sets_emit4 (decode_access12 true size hn ht k) fun s => ⟨_, rfl, rfl, ?_⟩
  rw [← BitVec.ofNat_toNat]
  rfl

theorem sets_access (size : Fin 3) (add : Bool) (k : BitVec 8) :
    Sets (emit4 (accessWord true false size rn rt (modeBits true add false ++ k))) rt fun s =>
      BitVec.ofNat 32 (loadLE s.mem (s.r rn + accessOff add k) (2 ^ size.val)) := by
  obtain ⟨d, hd, he⟩ := exec_load size hn ht add false (fun h => by cases h) k
  exact sets_emit4 hd he

theorem sets_ldr {off : Word} (h : within off 255 = true) :
    Sets (emitLdrI rt.toNat rn.toNat off) rt fun s =>
      BitVec.ofNat 32 (loadLE s.mem (s.r rn + off) 4) := by
  by_cases hzero : off = 0
  · subst hzero
    rw [encode_ldr_zero]
    exact sets_access12 ht hn 2 0
  · have hlt := magnitude_lt (b := 255) h (by decide)
    obtain ⟨hmode, hoff⟩ := ldr_short h
    have hsets := sets_access ht hn 2 (ldrAdd off) (bits (magnitude off) 0 8)
    rw [← ldrOff, hoff] at hsets
    rw [emitLdrI, if_neg hzero, encode_ldr rt rn hzero (by omega), hmode]
    exact hsets

/-- `LDR` with any offset the translator gives it. -/
theorem loads_ldr {off : Word} (h : within off 4095 = true) (hne : rn ≠ rt) :
    Loads (emitLdrI rt.toNat rn.toNat off) rt rn 4 fun s => s.r rn + ldrOff off := by
  by_cases hzero : off = 0
  · subst hzero
    intro s
    obtain ⟨t, hrun, hm, hv, hk⟩ := sets_ldr ht hn (show within (0 : Word) 255 = true by decide) s
    exact ⟨t, hrun, hm, hv, fun i hi _ => hk i hi⟩
  · have hlt := magnitude_lt (b := 4095) h (by decide)
    intro s
    obtain ⟨d, hd, he⟩ := exec_load 2 hn ht (ldrAdd off) ((magnitude off).getLsbD 8)
      (fun _ => hne) (bits (magnitude off) 0 8)
    obtain ⟨t, hex, hm, hr⟩ := he s
    rw [emitLdrI, if_neg hzero, encode_ldr rt rn hzero (by omega)]
    refine ⟨t, runs_emit4 hd hex, hm, by simp [hr, ldrOff], ?_⟩
    intro i hi hin
    rw [hr, withBase]
    split <;> simp [hi, hin]

end Load

/-! ### Loads of a byte -/

theorem encode_ldrb (rt rn : Reg) {off : Word} (h : within off 255 = true) :
    thumb32LdrbImmT3 rt.toNat rn.toNat off =
      accessWord true false 0 rn rt (modeBits true (off.toInt ≥ 0) false ++
        bits (magnitude off) 0 8) := by
  have hflag : ∀ b : Bool, (0xf8100000 : Word) ||| (0b1000 ||| bit true 2 ||| bit b 1) <<< 8 =
      (accessHead true false 0).setWidth 32 <<< 20 |||
        (modeBits true b false).setWidth 32 <<< 8 := by
    decide
  have hlt := magnitude_lt (b := 255) h (by decide)
  exact encode_short true 0 rn rt (hflag (off.toInt ≥ 0)) (by omega)

theorem access16_fields (op k : BitVec 5) (n t : BitVec 3) :
    (op.setWidth 32 <<< 11 ||| k.setWidth 32 <<< 6 ||| n.setWidth 32 <<< 3 |||
      t.setWidth 32 : Word).setWidth 16 = accessHalf op k n t := by
  apply BitVec.eq_of_getLsbD_eq
  intro i hi
  simp only [accessHalf, BitVec.getLsbD_append]
  interval_cases i <;> simp

theorem lowReg_setWidth : ∀ r : Reg, r < 8 → lowReg (r.setWidth 3) = r ∧
    regField r.toNat 3 = (r.setWidth 3).setWidth 32 <<< 3 ∧
    regField r.toNat 0 = (r.setWidth 3).setWidth 32 := by
  decide

theorem isLow_toNat (r : Reg) : isLow (r.toNat : ℤ) = decide (r < 8) := by
  revert r
  decide

theorem encode_ldrb16 {rt rn : Reg} (ht : rt < 8) (hn : rn < 8) {off : Word}
    (h : off.toNat < 32) :
    thumb16LdrbImmT1 rt.toNat rn.toNat off =
      accessHalf 0b01111 (off.setWidth 5) (rn.setWidth 3) (rt.setWidth 3) := by
  have hcut : off = (off.setWidth 5).setWidth 32 := by
    apply BitVec.eq_of_toNat_eq
    simp only [BitVec.toNat_setWidth]
    omega
  rw [thumb16LdrbImmT1, (lowReg_setWidth rn hn).2.1, (lowReg_setWidth rt ht).2.2]
  nth_rewrite 1 [hcut]
  exact access16_fields 0b01111 _ _ _

/-- Where `LDRB` loads the byte it should. -/
def ldrbRight (rn : Reg) (off : Word) : Prop :=
  0 ≤ off.toInt ∨ -255 ≤ off.toInt ∧ (8 ≤ rn ∨ off.toInt < -31)

theorem toNat_lt_of_toInt {off : Word} {b : ℕ} (h0 : 0 ≤ off.toInt) (hb : off.toInt < b) :
    off.toNat < b := by
  have hcond := off.toInt_eq_toNat_cond
  split at hcond <;> omega

theorem sets_ldrb {rt rn : Reg} (ht : rt < 8) (hn : rn ≠ 15) {off : Word}
    (h : within off 4095 = true) (hright : ldrbRight rn off) :
    Sets (emitLdrbI rt.toNat rn.toNat off) rt fun s =>
      BitVec.ofNat 32 (loadLE s.mem (s.r rn + off) 1) := by
  have hgood : ∀ r : Reg, r < 8 → badReg r = false := by decide
  have hrange := within_iff.mp h
  have hcond : (within off 31 && isLow (rt.toNat : ℤ) && isLow (rn.toNat : ℤ)) = true ↔
      (-31 ≤ off.toInt ∧ off.toInt ≤ 31) ∧ rn < 8 := by
    rw [isLow_toNat, isLow_toNat, decide_eq_true ht, Bool.and_true, Bool.and_eq_true,
      within_iff, decide_eq_true_iff]
  unfold emitLdrbI
  by_cases hshort : (-31 ≤ off.toInt ∧ off.toInt ≤ 31) ∧ rn < 8
  · -- the 16-bit encoding, which has no room for a sign
    have h0 : 0 ≤ off.toInt := by
      obtain ⟨hoff, hrn⟩ := hshort
      rcases hright with h0 | ⟨-, h8 | hlt⟩
      · exact h0
      · exact absurd hrn (BitVec.not_lt.mpr h8)
      · omega
    have hk : off.toNat < 32 := toNat_lt_of_toInt h0 (by omega)
    rw [if_pos (hcond.mpr hshort), encode_ldrb16 ht hshort.2 hk]
    refine sets_emit2 (decode_ldrb16 _ _ _) fun s => ⟨_, rfl, rfl, ?_⟩
    have hoff : BitVec.ofNat 32 (1 * (off.setWidth 5).toNat) = off := by
      apply BitVec.eq_of_toNat_eq
      rw [BitVec.toNat_ofNat, BitVec.toNat_setWidth]
      omega
    simp only [AddrMode.address, AddrMode.offsetAddr, AddrMode.writeBack, extend,
      (lowReg_setWidth rt ht).1, (lowReg_setWidth rn hshort.2).1, hoff]
    rfl
  · rw [if_neg (hcond.not.mpr hshort)]
    by_cases hbyte : within off 255 = true
    · have hoff : accessOff (decide (off.toInt ≥ 0)) (bits (magnitude off) 0 8) = off := by
        refine accessOff_magnitude hbyte ?_ ?_ <;> intro hsign <;> simp <;> omega
      have hsets := sets_access (hgood rt ht) hn 0 (decide (off.toInt ≥ 0))
        (bits (magnitude off) 0 8)
      rw [hoff] at hsets
      rw [if_pos hbyte, encode_ldrb rt rn hbyte]
      exact hsets
    · have h0 : 0 ≤ off.toInt := by
        rw [within_iff] at hbyte
        rcases hright with h0 | ⟨hlow, -⟩ <;> omega
      have hk : off.toNat < 4096 := toNat_lt_of_toInt h0 (by omega)
      have hhead : (accessHead true true 0).setWidth 32 <<< 20 = (0xf8900000 : Word) := by decide
      have hword := access_fields true true 0 rn rt hk
      rw [hhead] at hword
      have hcut : (off.setWidth 12).setWidth 32 = off := by
        apply BitVec.eq_of_toNat_eq
        simp only [BitVec.toNat_setWidth]
        omega
      have hsets := sets_access12 (hgood rt ht) hn 0 (off.setWidth 12)
      rw [hcut] at hsets
      rw [if_neg hbyte, if_pos h, hword]
      exact hsets

/-! ### Loads of a halfword -/

/-- The address `LDRH` loads from: a small offset is counted in halfwords,
and a base register that is not low spills into it. -/
def ldrhAddr (rn : Reg) (off : Word) (s : Core) : Word :=
  if within off 31 then
    if rn < 8 then s.r rn + BitVec.ofNat 32 (2 * (off.setWidth 5).toNat)
    else s.r 0 + BitVec.ofNat 32 (2 * (off.setWidth 5 ||| 1).toNat)
  else s.r rn + (off &&& 0xff)

theorem encode_ldrh16 {rt rn : Reg} (ht : rt < 8) (hn : rn ≤ 8) (off : Word) :
    (0x8800 ||| (off &&& 0b11111) <<< 6 ||| regField rn.toNat 3 |||
        regField rt.toNat 0 : Word).setWidth 16 =
      if rn < 8 then accessHalf 0b10001 (off.setWidth 5) (rn.setWidth 3) (rt.setWidth 3)
      else accessHalf 0b10001 (off.setWidth 5 ||| 1) 0 (rt.setWidth 3) := by
  have hcut : off &&& 0b11111 = (off.setWidth 5).setWidth 32 := by
    apply BitVec.eq_of_toNat_eq
    rw [BitVec.toNat_and, BitVec.toNat_setWidth, BitVec.toNat_setWidth]
    show off.toNat &&& 2 ^ 5 - 1 = _
    rw [Nat.and_two_pow_sub_one_eq_mod]
    omega
  rw [hcut, (lowReg_setWidth rt ht).2.2]
  by_cases hlow : rn < 8
  · rw [if_pos hlow, (lowReg_setWidth rn hlow).2.1]
    exact access16_fields 0b10001 _ _ _
  · have h8 : ∀ r : Reg, r ≤ 8 → ¬r < 8 → regField r.toNat 3 = 1 <<< 6 := by decide
    have hspill : ∀ k : BitVec 5, (k.setWidth 32 <<< 6 ||| 1 <<< 6 : Word) =
        (k ||| 1).setWidth 32 <<< 6 ||| (0 : BitVec 3).setWidth 32 <<< 3 := by
      decide
    rw [if_neg hlow, h8 rn hn hlow, ← access16_fields]
    have hor := congrArg
      (fun x : Word => (0x8800 ||| x ||| (rt.setWidth 3).setWidth 32 : Word).setWidth 16)
      (hspill (off.setWidth 5))
    simp only [← BitVec.or_assoc] at hor
    exact hor

theorem toNat_and_byte (off : Word) : (off &&& 0xff).toNat < 256 := by
  rw [BitVec.toNat_and]
  exact Nat.and_lt_two_pow (n := 8) _ (by decide)

theorem emitLdrhI_wide (rt rn : Reg) {off : Word} (hshort : ¬within off 31 = true)
    (h : within off 255 = true) :
    emitLdrhI rt.toNat rn.toNat off = emit4 (accessWord true false 1 rn rt
      (modeBits true true false ++ bits (off &&& 0xff) 0 8)) := by
  have hbase : (0xf8300000 : Word) ||| (0b1110 : Word) <<< 8 =
      (accessHead true false 1).setWidth 32 <<< 20 |||
        (modeBits true true false).setWidth 32 <<< 8 := by
    decide
  unfold emitLdrhI
  rw [if_neg hshort, if_pos h]
  exact congrArg emit4 (@encode_short true 1 rn rt 0xf8300000 0b1110 (off &&& 0xff)
    (modeBits true true false) hbase (toNat_and_byte off))

theorem sets_ldrh {rt rn : Reg} (ht : rt < 8) (hn : rn ≤ 8) {off : Word}
    (h : within off 255 = true) :
    Sets (emitLdrhI rt.toNat rn.toNat off) rt fun s =>
      BitVec.ofNat 32 (loadLE s.mem (ldrhAddr rn off s) 2) := by
  have hgood : ∀ r : Reg, r < 8 → badReg r = false := by decide
  have h15 : ∀ r : Reg, r ≤ 8 → r ≠ 15 := by decide
  by_cases hshort : within off 31 = true
  · simp only [ldrhAddr, hshort, if_true]
    unfold emitLdrhI
    rw [if_pos hshort, encode_ldrh16 ht hn]
    by_cases hlow : rn < 8
    · simp only [hlow, if_true]
      refine sets_emit2 (decode_ldrh16 _ _ _) fun s => ⟨_, rfl, rfl, ?_⟩
      rw [(lowReg_setWidth rt ht).1, (lowReg_setWidth rn hlow).1]
      rfl
    · simp only [hlow, if_false]
      refine sets_emit2 (decode_ldrh16 _ _ _) fun s => ⟨_, rfl, rfl, ?_⟩
      rw [(lowReg_setWidth rt ht).1]
      rfl
  · have hsets := sets_access (hgood rt ht) (h15 rn hn) 1 true (bits (off &&& 0xff) 0 8)
    rw [accessOff, if_pos rfl, setWidth_bits (toNat_and_byte off)] at hsets
    simp only [ldrhAddr, hshort]
    rw [emitLdrhI_wide rt rn hshort h]
    exact hsets

/-! ### Encodings that do not run -/

theorem bits_or {w : ℕ} (x y : BitVec w) (lo len : ℕ) :
    bits (x ||| y) lo len = bits x lo len ||| bits y lo len := BitVec.extractLsb'_or

theorem bits_of_neg {off : Word} {n : ℕ} (hneg : off.toInt < 0)
    (hsmall : -((2 ^ n : ℕ) : ℤ) ≤ off.toInt) {lo len : ℕ} (hlo : n ≤ lo) (hlen : lo + len ≤ 32) :
    bits off lo len = BitVec.allOnes len := by
  have hcond := off.toInt_eq_toNat_cond
  have hlt := off.isLt
  have hnot : (~~~off).toNat < 2 ^ n := by
    rw [BitVec.toNat_not]
    split at hcond <;> omega
  apply BitVec.eq_of_getLsbD_eq
  intro i hi
  have hbit : (~~~off).getLsbD (lo + i) = false := by
    rw [BitVec.getLsbD]
    exact Nat.testBit_lt_two_pow
      (hnot.trans_le (Nat.pow_le_pow_right (by decide) (by omega)))
  rw [BitVec.getLsbD_not, show decide (lo + i < 32) = true by simpa using by omega] at hbit
  rw [bits, BitVec.getLsbD_extractLsb', BitVec.getLsbD_allOnes]
  simpa [hi] using hbit

theorem bits_shl {w : ℕ} (x : BitVec w) {k lo len : ℕ} (hk : k ≤ lo) (hlen : lo + len ≤ w) :
    bits (x <<< k) lo len = bits x (lo - k) len := by
  apply BitVec.eq_of_getLsbD_eq
  intro i hi
  simp only [bits, BitVec.getLsbD_extractLsb', BitVec.getLsbD_shiftLeft, hi, decide_true,
    Bool.true_and, show lo + i < w by omega, show ¬lo + i < k by omega, decide_false,
    Bool.not_false]
  congr 1
  omega

theorem bits_setWidth {w v : ℕ} (x : BitVec w) {lo len : ℕ} (hlen : lo + len ≤ v) :
    bits (x.setWidth v) lo len = bits x lo len := by
  apply BitVec.eq_of_getLsbD_eq
  intro i hi
  simp only [bits, BitVec.getLsbD_extractLsb', BitVec.getLsbD_setWidth, hi, decide_true,
    Bool.true_and, show lo + i < v by omega]

/-- The sign of a short offset makes the 16-bit `LDRB` half of a wide
instruction. -/
theorem isWide_ldrb16 {rt rn : ℤ} {off : Word} (h1 : -31 ≤ off.toInt) (h2 : off.toInt < 0) :
    isWide (thumb16LdrbImmT1 rt rn off) = true := by
  have hoff : bits off (11 - 6) 5 = BitVec.allOnes 5 := bits_of_neg (n := 5) h2
    (show -((2 ^ 5 : ℕ) : ℤ) ≤ off.toInt by norm_num; omega) (by decide) (by decide)
  have htop : bits (thumb16LdrbImmT1 rt rn off) 11 5 = BitVec.allOnes 5 := by
    rw [thumb16LdrbImmT1, bits_setWidth _ (by decide), bits_or, bits_or, bits_or,
      bits_shl off (by decide) (by decide), hoff, BitVec.or_allOnes, BitVec.allOnes_or,
      BitVec.allOnes_or]
  rw [isWide, htop]
  decide

theorem bits_or_neg {off : Word} (h1 : -4095 ≤ off.toInt) (h2 : off.toInt < 0) (y : Word)
    {lo len : ℕ} (hlo : 12 ≤ lo) (hlen : lo + len ≤ 32) :
    bits (y ||| off) lo len = BitVec.allOnes len := by
  have hoff := bits_of_neg (n := 12) h2
    (show -((2 ^ 12 : ℕ) : ℤ) ≤ off.toInt by norm_num; omega) hlo hlen
  rw [bits_or, hoff, BitVec.or_allOnes]

theorem decode_or_neg {off : Word} (h1 : -4095 ≤ off.toInt) (h2 : off.toInt < 0) (y : Word)
    (d : Data) : decode32 (y ||| off) ≠ some (.data d) := by
  have hall (lo len : ℕ) (hlo : 12 ≤ lo) (hlen : lo + len ≤ 32) :
      bits (y ||| off) lo len = BitVec.allOnes len := bits_or_neg h1 h2 y hlo hlen
  simp only [decode32, decodeMul, hall 27 5 (by decide) (by decide),
    hall 21 6 (by decide) (by decide), hall 25 2 (by decide) (by decide),
    hall 23 4 (by decide) (by decide), hall 20 7 (by decide) (by decide)]
  simp

/-- A long negative offset makes the last form of `LDRB` undefined. -/
theorem not_runs_ldrb {rt rn : ℤ} {off : Word} (h1 : -4095 ≤ off.toInt) (h2 : off.toInt ≤ -256)
    {code : Code} {s t : Core} : ¬Runs (emitLdrbI rt rn off ++ code) s t := by
  have hno : ∀ b : ℤ, b < 256 → within off b = false := by
    intro b hb
    rw [Bool.eq_false_iff, ne_eq, within_iff]
    omega
  have hfar : within off 0xfff = true := within_iff.mpr (by omega)
  rw [emitLdrbI, hno 0b11111 (by decide), hno 0xff (by decide), hfar, Bool.false_and,
    Bool.false_and, if_neg (by decide), if_neg (by decide), if_pos rfl]
  refine not_runs_emit4 ?_ (decode_or_neg h1 (by omega) _)
  rw [bits_or_neg h1 (by omega) _ (by decide) (by decide)]
  decide

end RapidPatch.Jit
