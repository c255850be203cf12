import RapidPatch.Thumb.Machine

/-!
The 32-bit loads and stores of one register.

`accessWord` puts an encoding together from its fields; `decode_access12` and
`decode_access` take it apart again, for an offset of twelve bits and for any
of the eight modes with an offset of eight. `exec_load` and `exec_store` say
what the instruction does where it has an index: the address is the base with
the offset applied, and with write-back the base register becomes that
address.
-/

namespace RapidPatch.Thumb

open RapidPatch.Support

/-! ### Decoding -/

section Fields

variable {v w : ℕ}

theorem bits_append_high (x : BitVec v) (y : BitVec w) {lo len : ℕ} (h : w ≤ lo) :
    bits (x ++ y) lo len = bits x (lo - w) len :=
  BitVec.extractLsb'_append_eq_of_le h

theorem bits_append_low (x : BitVec v) (y : BitVec w) {lo len : ℕ} (h : lo + len ≤ w) :
    bits (x ++ y) lo len = bits y lo len :=
  BitVec.extractLsb'_append_eq_of_add_le h

theorem bits_self (x : BitVec w) : bits x 0 w = x := BitVec.extractLsb'_eq_self

end Fields

def accessHead (isLoad imm12 : Bool) (size : Fin 3) : BitVec 12 :=
  0xf80 ||| (BitVec.ofBool imm12).setWidth 12 <<< 3 ||| BitVec.ofNat 12 (2 * size) |||
    (BitVec.ofBool isLoad).setWidth 12

/-- A load or store of `2 ^ size` bytes; the last twelve bits are the offset,
or the mode and eight bits of offset. -/
def accessWord (isLoad imm12 : Bool) (size : Fin 3) (rn rt : Reg) (z : BitVec 12) : BitVec 32 :=
  accessHead isLoad imm12 size ++ (rn ++ (rt ++ z))

def modeBits (index add wback : Bool) : BitVec 4 :=
  0b1000 ||| (BitVec.ofBool index).setWidth 4 <<< 2 ||| (BitVec.ofBool add).setWidth 4 <<< 1 |||
    (BitVec.ofBool wback).setWidth 4

def accessData (isLoad : Bool) (size : Fin 3) (rn rt : Reg) (mode : AddrMode) : Data :=
  if isLoad then .load (2 ^ size.val) false rt rn mode else .store (2 ^ size.val) rt rn mode

theorem accessWord_fields (isLoad imm12 : Bool) (size : Fin 3) (rn rt : Reg) (z : BitVec 12) :
    let x := accessWord isLoad imm12 size rn rt z
    (bits x 27 5 = 0b11111 ∧ bits x 25 2 = 0 ∧ bits x 24 1 = 0 ∧
      bits x 23 1 = BitVec.ofBool imm12 ∧
      (bits x 21 6 = 0b000010 ↔ size = 2 ∧ imm12 = false) ∧
      bits x 21 2 = BitVec.ofNat 2 size ∧ bits x 20 1 = BitVec.ofBool isLoad) ∧
    (bits x 16 4 = rn ∧ bits x 12 4 = rt ∧ bits x 8 4 = bits z 8 4 ∧ bits x 0 8 = bits z 0 8 ∧
      bits x 0 12 = z) ∧
    bits x 11 1 = bits z 11 1 ∧ bits x 10 1 = bits z 10 1 ∧ bits x 9 1 = bits z 9 1 ∧
      bits x 8 1 = bits z 8 1 := by
  have hhead : ∀ (isLoad imm12 : Bool) (size : Fin 3),
      let H := accessHead isLoad imm12 size
      bits H 7 5 = 0b11111 ∧ bits H 5 2 = 0 ∧ bits H 4 1 = 0 ∧ bits H 3 1 = BitVec.ofBool imm12 ∧
        (bits H 1 6 = 0b000010 ↔ size = 2 ∧ imm12 = false) ∧ bits H 1 2 = BitVec.ofNat 2 size ∧
        bits H 0 1 = BitVec.ofBool isLoad := by decide
  refine ⟨?_, ?_, ?_⟩
  · simpa (disch := decide) only [accessWord, bits_append_high] using hhead isLoad imm12 size
  · simp (disch := decide) only [accessWord, bits_append_high, bits_append_low]
    exact ⟨bits_self rn, bits_self rt, trivial, trivial, bits_self z⟩
  · simp (disch := decide) only [accessWord, bits_append_low, and_self]

section Decode

variable (isLoad : Bool) (size : Fin 3) {rn rt : Reg} (hn : rn ≠ 15) (ht : badReg rt = false)

include hn ht

theorem decode_access12 (k : BitVec 12) :
    decode32 (accessWord isLoad true size rn rt k) =
      some (.data (accessData isLoad size rn rt ⟨true, true, false, k.toNat⟩)) := by
  obtain ⟨⟨h27, h25, h24, h23, h216, h212, h20⟩, ⟨h16, h12, -, -, h0⟩, -⟩ :=
    accessWord_fields isLoad true size rn rt k
  have hsize : ∀ size : Fin 3, BitVec.ofNat 2 size ≠ 3 ∧ (BitVec.ofNat 2 size).toNat = size := by
    decide
  obtain ⟨hs3, hsn⟩ := hsize size
  have h31 : BitVec.toNat (31 : BitVec 5) = 31 := rfl
  have hspecial : ¬(size = 2 ∧ true = false) := by simp
  simp only [decode32, decodeLoadStore, singleMode, h27, h31, h25, h24, h23, h216, h212, h20, h16,
    h12, h0, hspecial, hs3, hsn, ht, hn]
  cases isLoad <;> rfl

theorem decode_access (index add wback : Bool) (k : BitVec 8) :
    decode32 (accessWord isLoad false size rn rt (modeBits index add wback ++ k)) =
      if size = 2 ∧ modeBits index add wback = 0b1100 then
        some (.data (if isLoad then .ldr rt rn k.toNat else .str rt rn k.toNat))
      else if !index && !wback then none
      else if wback && rn = rt then none
      else some (.data (accessData isLoad size rn rt ⟨index, add, wback, k.toNat⟩)) := by
  obtain ⟨⟨h27, h25, h24, h23, h216, h212, h20⟩, ⟨h16, h12, h84, h0, -⟩, h11, h10, h9, h8⟩ :=
    accessWord_fields isLoad false size rn rt (modeBits index add wback ++ k)
  have hmode : ∀ index add wback : Bool,
      let m := modeBits index add wback
      bits m 3 1 = 1 ∧ bits m 2 1 = BitVec.ofBool index ∧ bits m 1 1 = BitVec.ofBool add ∧
        bits m 0 1 = BitVec.ofBool wback := by
    decide
  obtain ⟨m3, m2, m1, m0⟩ := hmode index add wback
  have hm : bits (modeBits index add wback) (8 - 8) 4 = modeBits index add wback := bits_self _
  have hk : bits k 0 8 = k := bits_self k
  simp (disch := decide) only [bits_append_high, bits_append_low, hm, hk] at h84 h0 h11 h10 h9 h8
  have hsize : ∀ size : Fin 3, BitVec.ofNat 2 size ≠ 3 ∧ (BitVec.ofNat 2 size).toNat = size := by
    decide
  obtain ⟨hs3, hsn⟩ := hsize size
  have hbool : ∀ b : Bool, BitVec.ofBool b = 1 ↔ b = true := by decide
  have h31 : BitVec.toNat (31 : BitVec 5) = 31 := rfl
  simp only [decode32, decodeSingle, decodeLoadStore, singleMode, h27, h25, h24, h23, h216, h212,
    h20, h16, h12, h84, h0, h11, h10, h9, h8, m3, m2, m1, m0, ht, hn, hs3, hsn, hbool, h31,
    Bool.decide_eq_true, and_true]
  by_cases hspecial : size = 2 ∧ modeBits index add wback = 0b1100
  · simp only [hspecial]
    cases isLoad <;> rfl
  · have hspecial' : (decide (size = 2) && decide (modeBits index add wback = 0b1100)) = false := by
      simpa using hspecial
    simp only [hspecial, hspecial', accessData, if_false, Bool.false_eq_true]
    cases index <;> cases wback <;> cases isLoad <;> by_cases heq : rn = rt <;> simp [heq]

end Decode

def accessHalf (op k : BitVec 5) (n t : BitVec 3) : BitVec 16 := op ++ (k ++ (n ++ t))

theorem accessHalf_fields (op k : BitVec 5) (n t : BitVec 3) :
    let x := accessHalf op k n t
    bits x 11 5 = op ∧ bits x 6 5 = k ∧ bits x 3 3 = n ∧ bits x 0 3 = t := by
  simp (disch := decide) only [accessHalf, bits_append_high, bits_append_low]
  exact ⟨bits_self op, bits_self k, bits_self n, bits_self t⟩

theorem decode_ldrb16 (k : BitVec 5) (n t : BitVec 3) :
    decode16 (accessHalf 0b01111 k n t) =
      some (.data (.load 1 false (lowReg t) (lowReg n) ⟨true, true, false, 1 * k.toNat⟩)) := by
  obtain ⟨hop, hk, hn, ht⟩ := accessHalf_fields 0b01111 k n t
  simp only [decode16, lowMode, hop, hk, hn, ht]
  rfl

theorem decode_ldrh16 (k : BitVec 5) (n t : BitVec 3) :
    decode16 (accessHalf 0b10001 k n t) =
      some (.data (.load 2 false (lowReg t) (lowReg n) ⟨true, true, false, 2 * k.toNat⟩)) := by
  obtain ⟨hop, hk, hn, ht⟩ := accessHalf_fields 0b10001 k n t
  simp only [decode16, lowMode, hop, hk, hn, ht]
  rfl

/-! ### Execution -/

def accessOff (add : Bool) (k : BitVec 8) : Word :=
  if add then k.setWidth 32 else -k.setWidth 32

theorem offsetAddr_eq (index add wback : Bool) (k : BitVec 8) (base : Word) :
    AddrMode.offsetAddr ⟨index, add, wback, k.toNat⟩ base = base + accessOff add k := by
  have hk : BitVec.ofNat 32 k.toNat = k.setWidth 32 := by
    rw [BitVec.ofNat_toNat]
  cases add with
  | true => simp only [AddrMode.offsetAddr, accessOff, if_true, hk]
  | false =>
      simp only [AddrMode.offsetAddr, accessOff, Bool.false_eq_true, if_false, hk]
      rw [BitVec.sub_eq_add_neg]

def withBase (s : Core) (wback : Bool) (rn : Reg) (a : Word) : Core :=
  if wback then s.set rn a else s

theorem modeBits_preIndexed : ∀ add wback : Bool, modeBits true add wback = 0b1100 →
    add = false ∧ wback = false := by
  decide

section Exec

variable (size : Fin 3) {rn rt : Reg} (hn : rn ≠ 15) (ht : badReg rt = false) (add wback : Bool)
  (hw : wback = true → rn ≠ rt) (k : BitVec 8)

include hn ht hw

theorem exec_load :
    ∃ d, decode32 (accessWord true false size rn rt (modeBits true add wback ++ k)) =
        some (.data d) ∧
      ∀ s, ∃ t, execData s d = some t ∧ t.mem = s.mem ∧
        t.r = ((withBase s wback rn (s.r rn + accessOff add k)).set rt
          (BitVec.ofNat 32 (loadLE s.mem (s.r rn + accessOff add k) (2 ^ size.val)))).r := by
  rw [decode_access true size hn ht]
  by_cases hspecial : size = 2 ∧ modeBits true add wback = 0b1100
  · obtain ⟨rfl, hmode⟩ := hspecial
    obtain ⟨rfl, rfl⟩ := modeBits_preIndexed add wback hmode
    refine ⟨_, if_pos ⟨rfl, hmode⟩, fun s => ⟨_, rfl, rfl, ?_⟩⟩
    rw [← offsetAddr_eq true false false]
    rfl
  · have hno : ¬((wback && decide (rn = rt)) = true) := by
      simpa using hw
    refine ⟨_, by rw [if_neg hspecial, if_neg (by simp), if_neg hno], fun s => ⟨_, rfl, ?_, ?_⟩⟩
    · cases wback <;> rfl
    · rw [← offsetAddr_eq true add wback]
      cases wback <;> rfl

theorem exec_store :
    ∃ d, decode32 (accessWord false false size rn rt (modeBits true add wback ++ k)) =
        some (.data d) ∧
      ∀ s, ∃ t, execData s d = some t ∧
        t.mem = storeLE s.mem (s.r rn + accessOff add k) (2 ^ size.val) (s.r rt).toNat ∧
        t.r = (withBase s wback rn (s.r rn + accessOff add k)).r := by
  rw [decode_access false size hn ht]
  by_cases hspecial : size = 2 ∧ modeBits true add wback = 0b1100
  · obtain ⟨rfl, hmode⟩ := hspecial
    obtain ⟨rfl, rfl⟩ := modeBits_preIndexed add wback hmode
    refine ⟨_, if_pos ⟨rfl, hmode⟩, fun s => ⟨_, rfl, ?_, rfl⟩⟩
    rw [← offsetAddr_eq true false false]
    rfl
  · have hno : ¬((wback && decide (rn = rt)) = true) := by
      simpa using hw
    refine ⟨_, by rw [if_neg hspecial, if_neg (by simp), if_neg hno], fun s => ⟨_, rfl, ?_, ?_⟩⟩
    · rw [← offsetAddr_eq true add wback]
      cases wback <;> rfl
    · rw [← offsetAddr_eq true add wback]
      cases wback <;> rfl

end Exec

end RapidPatch.Thumb
