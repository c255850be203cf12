import RapidPatch.Hotpatch.Capacity
import RapidPatch.Hotpatch.Trampolines
import RapidPatch.Thumb.Access

/-!
Addresses of halfwords, in remap words and in comparators.

A branch to the second half of a word lies in two remap words, which are the
flash around the address with the bytes of the branch in the middle
(`splices_remapWords`). A comparator of the debug monitor tells the halves of
a word apart and drops nothing of an address in the code region but the Thumb
bit (`compAddr_fpComp_eq`, `fpComp_eq_iff`).
-/

namespace RapidPatch.Hotpatch

open RapidPatch.Support RapidPatch.Thumb RapidPatch.Jit

/-! ### Bytes -/

def halfByte (half : BitVec 16) (k : ℕ) : BitVec 8 := bits half (8 * (k % 2)) 8

def instByte (inst : BitVec 32) (k : ℕ) : BitVec 8 :=
  halfByte (if k < 2 then bits inst 16 16 else bits inst 0 16) k

def wordsByte (word0 word1 : BitVec 32) (k : ℕ) : BitVec 8 := bits (word1 ++ word0) (8 * k) 8

def flashByte (flash : BitVec 32 → BitVec 16) (addr : BitVec 32) : BitVec 8 :=
  halfByte (flash (addr &&& ~~~0x1#32)) addr.toNat

/-- A byte of the flash, if it had an instruction at an address. -/
def withInst (flash : BitVec 32 → BitVec 16) (instAddr inst addr : BitVec 32) : BitVec 8 :=
  if addr - instAddr < 4 then instByte inst (addr - instAddr).toNat else flashByte flash addr

/-- Four halfwords in a row, two to a word. -/
theorem wordsByte_append (h0 h1 h2 h3 : BitVec 16) {k : ℕ} (hk : k < 8) :
    wordsByte (h1 ++ h0) (h3 ++ h2) k =
      halfByte (if k < 2 then h0 else if k < 4 then h1 else if k < 6 then h2 else h3) k := by
  rw [wordsByte, halfByte]
  by_cases h4 : k < 4
  · rw [bits_append_low _ _ (by omega)]
    by_cases h2' : k < 2
    · rw [bits_append_low _ _ (by omega), if_pos h2', Nat.mod_eq_of_lt h2']
    · rw [bits_append_high _ _ (by omega), if_neg h2', if_pos h4]
      congr 1
      omega
  · rw [bits_append_high _ _ (by omega), if_neg (by omega), if_neg h4]
    by_cases h6 : k < 6
    · rw [bits_append_low _ _ (by omega), if_pos h6]
      congr 1
      omega
    · rw [bits_append_high _ _ (by omega), if_neg h6]
      congr 1
      omega

section

variable {flash : BitVec 32 → BitVec 16} {base : BitVec 32} {k : ℕ}

theorem flashByte_add (hbase : base.toNat % 4 = 0) (hk : k < 8) :
    flashByte flash (base + BitVec.ofNat 32 k) =
      halfByte (flash (base + BitVec.ofNat 32 (k / 2 * 2))) k := by
  have hlt := base.isLt
  have haddr : (base + BitVec.ofNat 32 k) &&& ~~~0x1#32 = base + BitVec.ofNat 32 (k / 2 * 2) := by
    apply BitVec.eq_of_toNat_eq
    rw [toNat_and_not_one, BitVec.toNat_add, BitVec.toNat_add, BitVec.toNat_ofNat,
      BitVec.toNat_ofNat]
    omega
  have hparity : (base + BitVec.ofNat 32 k).toNat % 2 = k % 2 := by
    rw [BitVec.toNat_add, BitVec.toNat_ofNat]
    omega
  rw [flashByte, haddr, halfByte, hparity, halfByte]

theorem sub_halfword (base : BitVec 32) (k : ℕ) :
    base + BitVec.ofNat 32 k - (base + 2) = BitVec.ofNat 32 k - 2 := by bv_omega

theorem withInst_inside (hk : 2 ≤ k ∧ k < 6) (inst : BitVec 32) :
    withInst flash (base + 2) inst (base + BitVec.ofNat 32 k) = instByte inst (k - 2) := by
  have hdist : (BitVec.ofNat 32 k - 2).toNat = k - 2 := by bv_omega
  have hlt : BitVec.ofNat 32 k - 2 < 4 := by bv_omega
  rw [withInst, sub_halfword, if_pos hlt, hdist]

theorem withInst_outside (hk : k < 8) (hout : k < 2 ∨ 6 ≤ k) (inst : BitVec 32) :
    withInst flash (base + 2) inst (base + BitVec.ofNat 32 k) =
      flashByte flash (base + BitVec.ofNat 32 k) := by
  have hge : ¬BitVec.ofNat 32 k - 2 < 4 := by bv_omega
  rw [withInst, sub_halfword, if_neg hge]

theorem withInst_halfword (hbase : base.toNat % 4 = 0) (hk : k < 8) (inst : BitVec 32) :
    withInst flash (base + 2) inst (base + BitVec.ofNat 32 k) =
      halfByte (if k < 2 then flash base else if k < 4 then bits inst 16 16
        else if k < 6 then bits inst 0 16 else flash (base + 6)) k := by
  by_cases h2 : k < 2
  · have hzero : k / 2 * 2 = 0 := by omega
    rw [withInst_outside hk (.inl h2), flashByte_add hbase hk, if_pos h2, hzero]
    simp
  · by_cases h6 : k < 6
    · have hparity : (k - 2) % 2 = k % 2 := by omega
      have hfirst : k - 2 < 2 ↔ k < 4 := by omega
      rw [withInst_inside ⟨Nat.not_lt.mp h2, h6⟩, instByte, halfByte, hparity, if_neg h2]
      simp only [hfirst, if_pos h6]
      rfl
    · have hsix : k / 2 * 2 = 6 := by omega
      rw [withInst_outside hk (.inr (Nat.not_lt.mp h6)), flashByte_add hbase hk, if_neg h2,
        if_neg (by omega), if_neg h6, hsix]
      rfl

end

/-! ### Remap words -/

def firstRemapWord (jumpInst oldInstr0 : BitVec 32) : BitVec 32 :=
  ((jumpInst &&& 0x0000ffff) <<< 16) ||| (oldInstr0 &&& 0x0000ffff)

def secondRemapWord (jumpInst oldInstr1 : BitVec 32) : BitVec 32 :=
  (oldInstr1 &&& 0xffff0000) ||| ((jumpInst &&& 0xffff0000) >>> 16)

/-- The bytes of two words are those of the flash around a halfword address,
but for the instruction that starts at the address. -/
def Splices (flash : BitVec 32 → BitVec 16) (a inst word0 word1 : BitVec 32) : Prop :=
  ∀ k < 8, wordsByte word0 word1 k =
    withInst flash (a &&& ~~~0x1#32) inst ((a &&& ~~~0x3#32) + BitVec.ofNat 32 k)

theorem firstRemapWord_eq (inst old : BitVec 32) :
    firstRemapWord (littleEndian16Bit inst) old = bits inst 16 16 ++ bits old 0 16 := by
  apply BitVec.eq_of_getLsbD_eq
  intro i hi
  simp only [firstRemapWord, littleEndian16Bit, bits, BitVec.getLsbD_append]
  interval_cases i <;> simp

theorem secondRemapWord_eq (inst old : BitVec 32) :
    secondRemapWord (littleEndian16Bit inst) old = bits old 16 16 ++ bits inst 0 16 := by
  apply BitVec.eq_of_getLsbD_eq
  intro i hi
  simp only [secondRemapWord, littleEndian16Bit, bits, BitVec.getLsbD_append]
  interval_cases i <;> simp

section

variable {flash : BitVec 32 → BitVec 16} {f : Fpb} {a b : BitVec 32}

theorem flashWord_low (addr : BitVec 32) : bits (flashWord flash addr) 0 16 = flash addr := by
  rw [flashWord, bits_append_low _ _ (by omega), bits_self]

theorem flashWord_high (addr : BitVec 32) :
    bits (flashWord flash addr) 16 16 = flash (addr + 2) := by
  rw [flashWord, bits_append_high _ _ (by omega), bits_self]

theorem and_not_three_add_two (h : ¬IsWord a) : (a &&& ~~~0x3#32) + 2 = a &&& ~~~0x1#32 := by
  rw [IsWord, toNat_and_not_one] at h
  have hlt := a.isLt
  apply BitVec.eq_of_toNat_eq
  rw [BitVec.toNat_add, toNat_and_not_three, toNat_and_not_one]
  simp only [BitVec.reduceToNat]
  omega

theorem splices_remapWords (h : ¬IsWord a) (inst : BitVec 32) :
    Splices flash a inst
      (firstRemapWord (littleEndian16Bit inst) (flashWord flash (a &&& ~~~0x3#32)))
      (secondRemapWord (littleEndian16Bit inst) (flashWord flash ((a &&& ~~~0x3#32) + 4))) := by
  intro k hk
  have hbase : (a &&& ~~~0x3#32).toNat % 4 = 0 := by
    rw [toNat_and_not_three]
    omega
  rw [firstRemapWord_eq, secondRemapWord_eq, flashWord_low, flashWord_high,
    wordsByte_append _ _ _ _ hk, ← and_not_three_add_two h, withInst_halfword hbase hk,
    BitVec.add_assoc]
  rfl

/-- What `add_fpb_bkpt` puts into the remap table for a halfword address. -/
theorem addFpbBkpt_remapWords (flash : BitVec 32 → BitVec 16) (handler : ℕ → BitVec 32)
    (h : ¬IsWord a) (hfree : f.pairIdx a = none) :
    (addFpbBkpt flash handler f a).1.remapInst f.curIdx =
        firstRemapWord (jumpInst handler f.curIdx a) (flashWord flash (a &&& ~~~0x3#32)) ∧
      (addFpbBkpt flash handler f a).1.remapInst (f.curIdx + 1) =
        secondRemapWord (jumpInst handler f.curIdx a)
          (flashWord flash ((a &&& ~~~0x3#32) + 4)) := by
  have hbelow : a &&& ~~~0x1#32 &&& 0xfffffffc = a &&& ~~~0x3#32 := by
    rw [BitVec.and_assoc]
    rfl
  have hne : f.curIdx ≠ f.curIdx + 1 := Nat.ne_of_lt (Nat.lt_succ_self _)
  rw [addFpbBkpt_writes, fpbWrites, if_neg h, hfree, hbelow]
  simp only [List.foldl_cons, List.foldl_nil, Fpb.write, Function.update_self,
    Function.update_of_ne hne]
  exact ⟨rfl, rfl⟩

/-! ### Comparators -/

theorem fpComp_and_not_one (a : BitVec 32) : fpComp (a &&& ~~~0x1#32) = fpComp a := by
  have hbit : a &&& ~~~0x1#32 &&& 0x2 = a &&& 0x2 := by
    rw [BitVec.and_assoc]
    rfl
  have hword : a &&& ~~~0x1#32 &&& ~~~0x3#32 = a &&& ~~~0x3#32 := by
    rw [BitVec.and_assoc]
    rfl
  rw [fpComp, fpComp, hbit, hword]

/-- A halfword address below `0x20000000` fits the address field and the bit
for the half. -/
theorem and_halfwordField (h : a.toNat < 0x20000000) :
    a &&& ~~~0x1#32 &&& 0x1ffffffe = a &&& ~~~0x1#32 := by
  have hmask : ~~~0x1#32 &&& (0x1ffffffe : BitVec 32) = 0x1fffffff &&& ~~~0x1#32 := by decide
  rw [BitVec.and_assoc, hmask, ← BitVec.and_assoc, and_codeRegion h]

/-- The comparator breaks at the address without its Thumb bit. -/
theorem compAddr_fpComp_eq (h : a.toNat < 0x20000000) :
    compAddr (fpComp a) = a &&& ~~~0x1#32 := by
  rw [← fpComp_and_not_one, ← calcBpktAddr_eq_compAddr]
  exact calcBpktAddr_of_masked (and_halfwordField h)

theorem fpComp_eq_iff (ha : a.toNat < 0x20000000) (hb : b.toNat < 0x20000000) :
    fpComp a = fpComp b ↔ a &&& ~~~0x1#32 = b &&& ~~~0x1#32 := by
  constructor
  · intro h
    rw [← compAddr_fpComp_eq ha, ← compAddr_fpComp_eq hb, h]
  · intro h
    rw [← fpComp_and_not_one a, ← fpComp_and_not_one b, h]

/-- What `add_normal_bkpt` returns is the index of a comparator for the
address. -/
theorem addNormalBkpt_comp (f : Fpb) (a : BitVec 32) :
    ∃ i : ℕ, (addNormalBkpt f a).2 = i ∧ (addNormalBkpt f a).1.comp i = fpComp a := by
  rw [addNormalBkpt]
  split
  · rename_i i hfind
    exact ⟨i, rfl, by simpa using List.find?_some hfind⟩
  · exact ⟨f.curIdx, rfl, Function.update_self ..⟩

end

/-! ### Both -/

/-- For the address of a second half of a word, the remap words hold whatever
instruction goes there between the bytes of the flash; and the comparators that
`add_normal_bkpt` sets tell addresses below `0x20000000` apart, but for the
Thumb bit. -/
theorem halfword_coding (flash : BitVec 32 → BitVec 16) (handler : ℕ → BitVec 32) (f : Fpb) :
    (∀ a inst : BitVec 32, ¬IsWord a →
      Splices flash a inst
        (firstRemapWord (littleEndian16Bit inst) (flashWord flash (a &&& ~~~0x3#32)))
        (secondRemapWord (littleEndian16Bit inst) (flashWord flash ((a &&& ~~~0x3#32) + 4)))) ∧
    (∀ a : BitVec 32, ¬IsWord a → f.pairIdx a = none →
      let remapInst := (addFpbBkpt flash handler f a).1.remapInst
      remapInst f.curIdx =
          firstRemapWord (jumpInst handler f.curIdx a) (flashWord flash (a &&& ~~~0x3#32)) ∧
        remapInst (f.curIdx + 1) =
          secondRemapWord (jumpInst handler f.curIdx a)
            (flashWord flash ((a &&& ~~~0x3#32) + 4)) ∧
        Splices flash a (calcBranchInstr a (trampolineAddr handler f.curIdx))
          (remapInst f.curIdx) (remapInst (f.curIdx + 1))) ∧
    (∀ a : BitVec 32, a.toNat < 0x20000000 →
      (∃ i : ℕ, (addNormalBkpt f a).2 = i ∧ (addNormalBkpt f a).1.comp i = fpComp a) ∧
        compAddr (fpComp a) = calcBpktAddr a ∧ calcBpktAddr a = a &&& ~~~0x1#32) ∧
    ∀ a b : BitVec 32, a.toNat < 0x20000000 → b.toNat < 0x20000000 →
      (fpComp a = fpComp b ↔ a &&& ~~~0x1#32 = b &&& ~~~0x1#32) := by
  refine ⟨fun a inst h => splices_remapWords h inst, ?_, ?_, fun a b => fpComp_eq_iff⟩
  · intro a h hfree
    obtain ⟨hfirst, hsecond⟩ := addFpbBkpt_remapWords flash handler h hfree
    refine ⟨hfirst, hsecond, ?_⟩
    rw [hfirst, hsecond]
    exact splices_remapWords h _
  · intro a ha
    exact ⟨addNormalBkpt_comp f a, rfl, compAddr_fpComp_eq ha⟩

/-- A clear unit, an address of a second half and that address with the Thumb
bit. -/
theorem halfword_coding_clearRemap :
    Splices (fun _ => 0xbf00) 0x402 (calcBranchInstr 0x402 (trampolineAddr (fun _ => 0x1000) 0))
        ((addFpbBkpt (fun _ => 0xbf00) (fun _ => 0x1000) clearRemap.ready 0x402).1.remapInst 0)
        ((addFpbBkpt (fun _ => 0xbf00) (fun _ => 0x1000) clearRemap.ready 0x402).1.remapInst 1) ∧
      calcBpktAddr 0x403 = 0x402 ∧ fpComp 0x402 = fpComp 0x403 ∧ fpComp 0x402 ≠ fpComp 0x400 := by
  obtain ⟨-, hremap, hcomp, hsame⟩ :=
    halfword_coding (fun _ => 0xbf00) (fun _ => 0x1000) clearRemap.ready
  refine ⟨?_, ?_, ?_, ?_⟩
  · exact (hremap 0x402 (by decide) (by decide)).2.2
  · exact (hcomp 0x403 (by decide)).2.2
  · exact (hsame 0x402 0x403 (by decide) (by decide)).mpr rfl
  · intro h
    exact absurd ((hsame 0x402 0x400 (by decide) (by decide)).mp h) (by decide)

end RapidPatch.Hotpatch
