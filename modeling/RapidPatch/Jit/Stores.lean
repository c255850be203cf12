import RapidPatch.Jit.LoadBase

/-!
The translation of stores.

The emitter hands the encoders the register of the value as the base and the
register of the address as the value. What is stored is the address, and where
the low word of the value says; the two narrow encoders also write that base
back. So a store is right where the value is an address that happens to fit.
-/

namespace RapidPatch.Jit

open RapidPatch.Vm RapidPatch.Thumb RapidPatch.Support

/-! ### The code -/

def addrReg (d : Loc) (far : Bool) : Reg := if far then 7 else d.word false 6

def addrCode (d : Loc) (far : Bool) (off : Word) : Code :=
  (armBpfGetReg32 d.row.lo tmpReg1.lo).1 ++
    if far then
      emitMovImm tmpReg1.hi off ++
        emitAddReg tmpReg1.hi ((d.word false 6).toNat : ℤ) false false
    else []

/-- The access of `emit_str_reg`. -/
def storeCode (q : Fin 5) (rd : Reg) (off : Word) : Size → Code
  | .b => emit4 (thumb32StrbImmT3 (loReg q).toNat rd.toNat off)
  | .h => emit4 (thumb32StrhImmT3 (loReg q).toNat rd.toNat off)
  | .w => emitStrI (loReg q).toNat rd.toNat off
  | .dw => emitStrI (loReg q).toNat rd.toNat off ++ emitStrI (hiReg q).toNat rd.toNat (nextWord off)

def strCode (d : Loc) (q : Fin 5) (off : Word) (sz : Size) : Code :=
  let far := !isLdstImm off sz
  addrCode d far off ++ storeCode q (addrReg d far) (if far then 0 else off) sz

theorem emitStrReg_code (d : Loc) (q : Fin 5) (off : Word) (sz : Size) :
    emitStrReg d.row.lo (Loc.pair q).row off sz = strCode d q off sz := by
  have hdst : (armBpfGetReg32 d.row.lo tmpReg1.lo).2 = ((d.word false 6).toNat : ℤ) :=
    getReg32_word d false 6
  have h7 : tmpReg1.hi = ((7 : Reg).toNat : ℤ) := rfl
  simp only [emitStrReg, strCode, addrCode, addrReg, hdst, row_pair_lo, row_pair_hi, lo_eq, hi_eq]
  generalize (!isLdstImm off sz) = far
  cases far <;> cases sz <;> simp [storeCode, h7]

/-! ### Up to the access -/

theorem runs_addrCode (d : Loc) (far : Bool) (off : Word) (s : Core) :
    ∃ u, Runs (addrCode d far off) s u ∧ u.mem = s.mem ∧
      u.r (addrReg d far) = loWord (val s d) + (if far then off else 0) ∧
      ∀ i, i ≠ 6 → i ≠ 7 → u.r i = s.r i := by
  have hreg : d.word false 6 ≤ 8 ∧ d.word false 6 ≠ 7 := by
    cases d with
    | pair p =>
        have hlo : ∀ p : Fin 5, loReg p ≤ 8 ∧ loReg p ≠ 7 := by decide
        exact hlo p
    | slot j => exact (by decide : (6 : Reg) ≤ 8 ∧ (6 : Reg) ≠ 7)
  have hload := runs_getReg32 d false (show badReg 6 = false by decide) s
  have hword := loadWord_word d false 6 s
  have hother : ∀ i, i ≠ 6 → (loadWord d false 6 s).r i = s.r i :=
    fun i hi => loadWord_other d false s hi
  have hmem := loadWord_mem d false 6 s
  generalize loadWord d false 6 s = u at hload hword hother hmem
  cases far with
  | true =>
      obtain ⟨v, hv, hmv, hsum, hkv⟩ := runs_farBase hreg.1 hreg.2 off u
      refine ⟨v, hload.append hv, hmv.trans hmem, ?_, fun i h6 h7 => ?_⟩
      · rw [addrReg, if_pos rfl, if_pos rfl, hsum, hword]
        rfl
      · rw [hkv i h7, hother i h6]
  | false =>
      refine ⟨u, ?_, hmem, ?_, fun i h6 _ => hother i h6⟩
      · rw [addrCode, if_neg (by decide), List.append_nil]
        exact hload
      · rw [addrReg, if_neg (by decide), if_neg (by decide), hword]
        exact (BitVec.add_zero _).symm

/-- The code puts a number into a pair; the high word only matters if it is
stored. -/
def Provides (code : Code) (q : Fin 5) (v : BitVec 64) (wide : Bool) (ρ : Regs) : Prop :=
  ∀ s, HoldsRegs ρ s → ∃ u, Runs code s u ∧ u.mem = s.mem ∧ u.r (loReg q) = loWord v ∧
    (wide = true → u.r (hiReg q) = hiWord v) ∧ ∀ i, i ≠ 8 → i ≠ 9 → u.r i = s.r i

/-- The pair holds the value by way of `TMP_REG_2`, or is the register's own. -/
def SourcePair (q : Fin 5) (v : BitVec 64) (ρ : Regs) : Prop :=
  q = 4 ∨ q ≠ 4 ∧ ∃ e < 10, locOf e = .pair q ∧ ρ e = v

/-- Value and address are in their registers. -/
structure Ready (d : BitVec 4) (far : Bool) (off : Word) (q : Fin 5) (v : BitVec 64) (wide : Bool)
    (ρ : Regs) (s u : Core) : Prop where
  mem : u.mem = s.mem
  addr : u.r (addrReg (locOf d) far) = loWord (ρ d) + (if far then off else 0)
  low : u.r (loReg q) = loWord v
  high : wide = true → u.r (hiReg q) = hiWord v
  other : ∀ i, i ≠ 6 → i ≠ 7 → i ≠ 8 → i ≠ 9 → u.r i = s.r i

section Ready

variable {ρ : Regs} {d : BitVec 4} {off : Word} {q : Fin 5} {v : BitVec 64} {wide : Bool}
  {vc : Code}

theorem Provides.ready (h : Provides vc q v wide ρ) (hd : d < 10) (hq : q ≠ 3) (far : Bool)
    (off : Word) {s : Core} (hs : HoldsRegs ρ s) :
    ∃ u, Runs (vc ++ addrCode (locOf d) far off) s u ∧ Ready d far off q v wide ρ s u := by
  have hpair : ∀ q : Fin 5, q ≠ 3 → (loReg q ≠ 6 ∧ loReg q ≠ 7) ∧ hiReg q ≠ 6 ∧ hiReg q ≠ 7 := by
    decide
  obtain ⟨⟨hlo6, hlo7⟩, hhi6, hhi7⟩ := hpair q hq
  obtain ⟨w, hw, hmw, hlow, hhigh, hkw⟩ := h s hs
  obtain ⟨u, hu, hmu, haddr, hku⟩ := runs_addrCode (locOf d) far off w
  have hk : Keeps [.pair 4] s w := keeps_pair hmw fun i h8 h9 _ _ => hkw i h8 h9
  have hval : val w (locOf d) = ρ d := by
    rw [hk.same _ (by simpa using fun h4 => locOf_not_temp d (Or.inr h4)), hs.regs d hd]
  refine ⟨u, hw.append hu, hmu.trans hmw, ?_, ?_, ?_, ?_⟩
  · rw [haddr, hval]
  · rw [hku _ hlo6 hlo7, hlow]
  · intro hwide
    rw [hku _ hhi6 hhi7, hhigh hwide]
  · intro i h6 h7 h8 h9
    rw [hku i h6 h7, hkw i h8 h9]

theorem HoldsRegs.lands_store {s t : Core} (hs : HoldsRegs ρ s)
    (hr : ∀ i, i ≠ 6 → i ≠ 7 → i ≠ 8 → i ≠ 9 → t.r i = s.r i) {a : Word} {n k : ℕ}
    (hm : t.mem = storeLE s.mem a n k) (hmiss : Misses (s.r 11) a n) :
    Arrives ρ (storeLE s.mem a n k) s t := by
  have hfp : t.r 11 = s.r 11 := hr 11 (by decide) (by decide) (by decide) (by decide)
  refine ⟨hfp, fun r hr10 => ?_, fun x _ => by rw [hm]⟩
  rw [← hs.regs r hr10]
  rcases locOf_cases r hr10 with ⟨-, p, hp, hloc⟩ | ⟨-, j, hloc⟩
  · have hlt : ∀ (p : Fin 5), p < 3 → ∀ i, i = loReg p ∨ i = hiReg p →
        i ≠ 6 ∧ i ≠ 7 ∧ i ≠ 8 ∧ i ≠ 9 := by decide
    have hsame : ∀ i, i = loReg p ∨ i = hiReg p → t.r i = s.r i := fun i hi =>
      have h := hlt p hp i hi
      hr i h.1 h.2.1 h.2.2.1 h.2.2.2
    rw [hloc, val, val, hsame _ (Or.inl rfl), hsame _ (Or.inr rfl)]
  · rw [hloc]
    refine val_slot_congr hfp (fun x hx => ?_) j
    rw [hm]
    exact hmiss.storeLE s.mem k hx

end Ready

/-! ### One store -/

/-- The code stores the low `n` bytes of a number at `a`, if the frame is
elsewhere, and changes no register. -/
def StoresRight (code : Code) (ρ : Regs) (a : Word) (n v : ℕ) : Prop :=
  ∀ s, HoldsRegs ρ s → Misses (s.r 11) a n →
    ∃ t, Runs code s t ∧ Arrives ρ (storeLE s.mem a n v) s t

section Single

variable {ρ : Regs} {d : BitVec 4} {off a : Word} {q : Fin 5} {v : BitVec 64} {wide far : Bool}
  {vc : Code}

theorem not_stores_of_not_runs {code : Code} {n k : ℕ} (hn : n ≤ 8)
    (h : ∀ s, HoldsRegs ρ s → ∀ t, ¬Runs code s t) : ¬StoresRight code ρ a n k := by
  intro hright
  obtain ⟨s, hs, -, -, hmem⟩ := exists_core_misses ρ (fun _ => 0) (l := [a]) (by simp)
  obtain ⟨t, ht, -⟩ := hright s hs ((hmem a (by simp)).1.mono hn)
  exact h s hs t ht

theorem sourcePair_ne_three (hq : SourcePair q v ρ) : q ≠ 3 := by
  rcases hq with rfl | ⟨-, e, -, he, -⟩
  · decide
  · rintro rfl
    exact locOf_not_temp e (Or.inl he)

def addrWord (d : BitVec 4) (far : Bool) (off : Word) (ρ : Regs) : Word :=
  loWord (ρ d) + if far then off else 0

theorem badReg_addrReg (l : Loc) (far : Bool) : badReg (addrReg l far) = false := by
  have hlo : ∀ p : Fin 5, badReg (loReg p) = false := by decide
  unfold addrReg
  split
  · decide
  · cases l with
    | pair p => exact hlo p
    | slot j => exact (by decide : badReg 6 = false)

theorem runs_store (size : Fin 3) {rn rt : Reg} (hn : rn ≠ 15) (ht : badReg rt = false)
    (add wback : Bool) (hne : wback = true → rn ≠ rt) (k : BitVec 8) (u : Core) :
    ∃ t, Runs (emit4 (accessWord false false size rn rt (modeBits true add wback ++ k))) u t ∧
      t.mem = storeLE u.mem (u.r rn + accessOff add k) (2 ^ size.val) (u.r rt).toNat ∧
      t.r = (withBase u wback rn (u.r rn + accessOff add k)).r := by
  obtain ⟨i, hi, hex⟩ := exec_store size hn ht add wback hne k
  obtain ⟨t, hrun, hm, hr⟩ := hex u
  exact ⟨t, runs_emit4 hi hrun, hm, hr⟩

/-- Where one store is right: the value names the address, the address has the
bytes of the value, and a base that is written back is as before or not used. -/
theorem single_iff (hvc : Provides vc q v wide ρ) (hd : d < 10) (hq : SourcePair q v ρ)
    (size : Fin 3) (add wback : Bool) (hne : wback = true → loReg q ≠ addrReg (locOf d) far)
    (k : BitVec 8) :
    StoresRight (vc ++ addrCode (locOf d) far off ++
        emit4 (accessWord false false size (loReg q) (addrReg (locOf d) far)
          (modeBits true add wback ++ k))) ρ a (2 ^ size.val) v.toNat ↔
      loWord v + accessOff add k = a ∧
        (addrWord d far off ρ).toNat % 256 ^ (2 ^ size.val) = v.toNat % 256 ^ (2 ^ size.val) ∧
        (wback = true → q ≠ 4 → accessOff add k = 0) := by
  have hpos : 0 < 2 ^ size.val := Nat.two_pow_pos _
  have hsize : 2 ^ size.val ≤ 8 := by
    have hlt := size.isLt
    calc 2 ^ size.val ≤ 2 ^ 3 := Nat.pow_le_pow_right (by decide) hlt.le
      _ = 8 := rfl
  have h15 : ∀ p : Fin 5, loReg p ≠ 15 := by decide
  have hq3 := sourcePair_ne_three hq
  have hcode : ∀ s, HoldsRegs ρ s → ∃ u t, Ready d far off q v wide ρ s u ∧
      Runs (vc ++ addrCode (locOf d) far off ++
        emit4 (accessWord false false size (loReg q) (addrReg (locOf d) far)
          (modeBits true add wback ++ k))) s t ∧
      t.mem = storeLE s.mem (loWord v + accessOff add k) (2 ^ size.val)
        (addrWord d far off ρ).toNat ∧
      t.r = (withBase u wback (loReg q) (loWord v + accessOff add k)).r := by
    intro s hs
    obtain ⟨u, hu, hready⟩ := hvc.ready hd hq3 far off hs
    obtain ⟨t, ht, hm, hr⟩ := runs_store size (h15 q) (badReg_addrReg _ _) add wback hne k u
    rw [hready.low, hready.addr, hready.mem] at hm
    rw [hready.low] at hr
    exact ⟨u, t, hready, hu.append ht, hm, hr⟩
  constructor
  · intro hright
    -- neither of the two bytes that are to be stored first is there before
    obtain ⟨s, hs, -, -, hmem⟩ := exists_core_misses ρ
      (fun x => if x = a then ~~~BitVec.ofNat 8 v.toNat
        else ~~~BitVec.ofNat 8 (addrWord d far off ρ).toNat)
      (l := [a, loWord v + accessOff add k]) (by simp)
    have hbyte : ∀ x ∈ [a, loWord v + accessOff add k], s.mem x =
        if x = a then ~~~BitVec.ofNat 8 v.toNat
          else ~~~BitVec.ofNat 8 (addrWord d far off ρ).toNat := by
      intro x hx
      have h0 := (hmem x hx).2 0 (by decide)
      rwa [show x + BitVec.ofNat 32 0 = x from BitVec.add_zero x] at h0
    have hnot : ∀ x : BitVec 8, ~~~x ≠ x := by decide
    obtain ⟨t, ht, hland⟩ := hright s hs ((hmem a (by simp)).1.mono hsize)
    obtain ⟨u, w, hready, hw, hm, hr⟩ := hcode s hs
    rw [ht.unique hw] at hland
    have hinj := storeLE_inj (m := s.mem) (a := a) (b := loWord v + accessOff add k)
      (v := v.toNat) (w := (addrWord d far off ρ).toNat) hpos (by omega)
      (by rw [hbyte a (by simp), if_pos rfl]; exact hnot _)
      (fun hba => by rw [hbyte _ (by simp), if_neg hba]; exact hnot _)
      (fun x hx => by
        rw [← hm]
        refine hland.mem x ?_
        rcases hx with rfl | hx
        · have h0 := (hmem (loWord v + accessOff add k) (by simp)).1 0 (by decide)
          rwa [show ∀ x : Word, x + BitVec.ofNat 32 0 = x from BitVec.add_zero] at h0
        · have hin := (hmem a (by simp)).1 (x - a).toNat (by omega)
          rwa [BitVec.ofNat_toNat, BitVec.setWidth_eq, BitVec.add_comm,
            BitVec.sub_add_cancel] at hin)
    refine ⟨hinj.1, hinj.2, fun hwb hq4 => ?_⟩
    obtain ⟨e, he, hloc, hval⟩ := (hq.resolve_left hq4).2
    have hreg := hland.regs e he
    rw [hloc, hval, val, hr, hwb, withBase, if_pos rfl, ← pair_words v, pair_eq_iff] at hreg
    have hlow := hreg.2
    rw [set_r, if_pos rfl] at hlow
    simpa using hlow
  · rintro ⟨rfl, hbytes, hback⟩ s hs hmiss
    obtain ⟨u, t, hready, ht, hm, hr⟩ := hcode s hs
    rw [storeLE_congr _ _ hbytes] at hm
    refine ⟨t, ht, hs.lands_store (fun i h6 h7 h8 h9 => ?_) hm hmiss⟩
    rw [← hready.other i h6 h7 h8 h9, hr, withBase]
    split
    · rename_i hwb
      by_cases hi : i = loReg q
      · have hq4 : q ≠ 4 := by
          rintro rfl
          exact h8 hi
        rw [set_r, if_pos hi, hback hwb hq4, hi, hready.low]
        exact BitVec.add_zero _
      · rw [set_r, if_neg hi]
    · rfl

/-- A store that is no instruction. -/
theorem not_runs_undefined {size : Fin 3} {rn rt : Reg} (hn : rn ≠ 15) (ht : badReg rt = false)
    {index add wback : Bool}
    (hno : (!index && !wback) = true ∨ index = true ∧ wback = true ∧ rn = rt) {k : BitVec 8}
    {more : Code} {u t : Core} :
    ¬Runs (emit4 (accessWord false false size rn rt (modeBits index add wback ++ k)) ++ more)
      u t := by
  have htop : bits (accessWord false false size rn rt (modeBits index add wback ++ k)) 27 5 =
      0b11111 := (accessWord_fields false false size rn rt _).1.1
  have hmode : ∀ index add wback : Bool, modeBits index add wback = 0b1100 →
      index = true ∧ wback = false := by decide
  refine not_runs_emit4 (by rw [htop]; decide) fun i => ?_
  rw [decode_access false size hn ht]
  rcases hno with hno | ⟨rfl, rfl, rfl⟩
  · rw [if_neg, if_pos hno]
    · exact Option.some_ne_none _ ∘ Eq.symm
    · rintro ⟨-, h⟩
      rw [(hmode _ _ _ h).1] at hno
      cases hno
  · rw [if_neg, if_neg (by decide), if_pos (by simp)]
    · exact Option.some_ne_none _ ∘ Eq.symm
    · rintro ⟨-, h⟩
      exact Bool.false_ne_true (hmode _ _ _ h).2.symm

end Single

/-! ### The encoders -/

def byteOff (off : Word) : Word := magnitude off &&& 0xff

theorem setWidth_bits_byte (z : Word) : (bits z 0 8).setWidth 32 = z &&& 0xff := by
  apply BitVec.eq_of_toNat_eq
  rw [BitVec.toNat_setWidth, bits, BitVec.extractLsb'_toNat, Nat.shiftRight_zero,
    BitVec.toNat_and]
  show z.toNat % 2 ^ 8 % 2 ^ 32 = z.toNat &&& 2 ^ 8 - 1
  rw [Nat.and_two_pow_sub_one_eq_mod]
  omega

/-- The narrow stores: added, before the access, with write-back. -/
theorem encode_storeT3 {base : Word} {size : Fin 3}
    (hbase : base ||| (0b111 : Word) <<< 8 = (accessHead false false size).setWidth 32 <<< 20 |||
      (modeBits true true true).setWidth 32 <<< 8) (rn rt : Reg) {off : Word}
    (hmag : (magnitude off).toNat < 4096) :
    storeImmT3 base rn.toNat rt.toNat off =
      accessWord false false size rn rt (modeBits true true true ++ bits (magnitude off) 0 8) := by
  have hflag : ∀ b c : Bool, (0b111 ||| bit b 2 ||| bit c 1 : Word) = 0b111 := by decide
  have hmode : ∀ m : BitVec 4, modeBits true true true ||| m = modeBits true true true := by decide
  have hword := encode_access false size rn rt hbase hmag
  rw [hmode] at hword
  rw [storeImmT3, hflag]
  exact hword

/-- `_emit_str_i`: no index for an offset of zero. -/
theorem encode_str (rn rt : Reg) (off : Word) :
    emitStrI rn.toNat rt.toNat off = emit4 (accessWord false false 2 rn rt
      (modeBits (off ≠ 0) (off.toInt > 0) false ++ bits (byteOff off) 0 8)) := by
  have hbase : ∀ b c : Bool, (0xf8400000 : Word) ||| (0b1000 ||| bit b 2 ||| bit c 1) <<< 8 =
      (accessHead false false 2).setWidth 32 <<< 20 ||| (modeBits b c false).setWidth 32 <<< 8 := by
    decide
  have hlt : (byteOff off).toNat < 256 := by
    unfold byteOff
    exact toNat_and_byte _
  exact congrArg emit4 (@encode_short false 2 rn rt 0xf8400000
    (0b1000 ||| bit (off ≠ 0) 2 ||| bit (off.toInt > 0) 1) (byteOff off)
    (modeBits (off ≠ 0) (off.toInt > 0) false) (hbase (off ≠ 0) (off.toInt > 0)) hlt)

/-! ### Bytes and halfwords -/

section Sizes

variable {ρ : Regs} {d : BitVec 4} {off : Word} {q : Fin 5} {v : BitVec 64} {wide : Bool}
  {vc : Code}

/-- Where a store of a byte or a halfword is right. -/
def NarrowRight (d : BitVec 4) (q : Fin 5) (far : Bool) (off : Word) (v : BitVec 64) (n : ℕ)
    (ρ : Regs) : Prop :=
  let k := byteOff (if far then 0 else off)
  (q ≠ 4 → k = 0 ∧ (far = true ∨ locOf d ≠ .pair q)) ∧ loWord v + k = loWord (ρ d) + off ∧
    (addrWord d far off ρ).toNat % 256 ^ n = v.toNat % 256 ^ n

theorem loReg_eq_addrReg_iff (hd : d < 10) (hq : q ≠ 3) (far : Bool) :
    loReg q = addrReg (locOf d) far ↔ far = false ∧ q ≠ 4 ∧ locOf d = .pair q := by
  have h67 : ∀ q : Fin 5, q ≠ 3 → loReg q ≠ 7 ∧ loReg q ≠ 6 := by decide
  cases far with
  | true => exact iff_of_false (h67 q hq).1 fun h => Bool.false_ne_true h.1.symm
  | false =>
      rcases locOf_cases d hd with ⟨-, p, hp, hloc⟩ | ⟨-, j, hloc⟩
      · have h4 : ∀ p : Fin 5, p < 3 → p ≠ 4 := by decide
        rw [hloc]
        show loReg q = loReg p ↔ _
        rw [loReg_inj, Loc.pair.injEq]
        exact ⟨fun h => ⟨rfl, h ▸ h4 p hp, h.symm⟩, fun h => h.2.2.symm⟩
      · rw [hloc]
        exact iff_of_false (h67 q hq).2 fun h => by cases h.2.2

theorem narrowStore_iff (hvc : Provides vc q v wide ρ) (hd : d < 10) (hq : SourcePair q v ρ)
    {sz : Size} {size : Fin 3}
    (hcode : storeCode q (addrReg (locOf d) (!isLdstImm off sz))
        (if !isLdstImm off sz then 0 else off) sz =
      emit4 (accessWord false false size (loReg q) (addrReg (locOf d) (!isLdstImm off sz))
        (modeBits true true true ++ bits (magnitude (if !isLdstImm off sz then 0 else off)) 0 8))) :
    StoresRight (vc ++ strCode (locOf d) q off sz) ρ (loWord (ρ d) + off) (2 ^ size.val) v.toNat ↔
      NarrowRight d q (!isLdstImm off sz) off v (2 ^ size.val) ρ := by
  have hcode' : vc ++ strCode (locOf d) q off sz =
      vc ++ addrCode (locOf d) (!isLdstImm off sz) off ++ emit4 (accessWord false false size
        (loReg q) (addrReg (locOf d) (!isLdstImm off sz)) (modeBits true true true ++
          bits (magnitude (if !isLdstImm off sz then 0 else off)) 0 8)) := by
    rw [← hcode, strCode, List.append_assoc]
  have h15 : ∀ q : Fin 5, loReg q ≠ 15 := by decide
  have hsize : 2 ^ size.val ≤ 8 := by
    have hlt := size.isLt
    calc 2 ^ size.val ≤ 2 ^ 3 := Nat.pow_le_pow_right (by decide) hlt.le
      _ = 8 := rfl
  rw [hcode']
  generalize (!isLdstImm off sz) = far
  have hsame := loReg_eq_addrReg_iff hd (sourcePair_ne_three hq) far
  by_cases hreg : loReg q = addrReg (locOf d) far
  · -- base and value are one register, which is written back
    obtain ⟨rfl, hq4, hloc⟩ := hsame.mp hreg
    refine iff_of_false ?_ fun h => ?_
    · refine not_stores_of_not_runs hsize fun s hs t hrun => ?_
      obtain ⟨u, hu, -⟩ := hvc.ready hd (sourcePair_ne_three hq) false off hs
      rw [← List.append_nil (emit4 _)] at hrun
      exact not_runs_undefined (h15 q) (badReg_addrReg _ _) (Or.inr ⟨rfl, rfl, hreg⟩)
        (hu.of_append hrun)
    · exact (h.1 hq4).2.elim Bool.false_ne_true fun hne => hne hloc
  · rw [single_iff hvc hd hq size true true (fun _ => hreg), accessOff, if_pos rfl,
      setWidth_bits_byte]
    have hapart : q ≠ 4 → (far = true ∨ locOf d ≠ .pair q) := by
      intro hq4
      by_cases hfar : far = true
      · exact Or.inl hfar
      · exact Or.inr fun hloc => hreg (hsame.mpr ⟨by simpa using hfar, hq4, hloc⟩)
    constructor
    · rintro ⟨haddr, hbytes, hback⟩
      exact ⟨fun hq4 => ⟨hback rfl hq4, hapart hq4⟩, haddr, hbytes⟩
    · rintro ⟨hback, haddr, hbytes⟩
      exact ⟨haddr, hbytes, fun _ hq4 => (hback hq4).1⟩

theorem byteStore_iff (hvc : Provides vc q v wide ρ) (hd : d < 10) (hq : SourcePair q v ρ) :
    StoresRight (vc ++ strCode (locOf d) q off .b) ρ (loWord (ρ d) + off) 1 v.toNat ↔
      NarrowRight d q (!isLdstImm off .b) off v 1 ρ := by
  refine narrowStore_iff hvc hd hq (?_ : _ = emit4 (accessWord false false 0 _ _ _))
  have hmag : (magnitude (if !isLdstImm off .b then 0 else off)).toNat < 4096 := by
    split
    · decide
    · rename_i hnear
      have hle := magnitude_lt (b := 4095) (by simpa [isLdstImm] using hnear) (by decide)
      omega
  exact congrArg emit4 (@encode_storeT3 0xf8000800 0 (by decide) _ _ _ hmag)

theorem halfStore_iff (hvc : Provides vc q v wide ρ) (hd : d < 10) (hq : SourcePair q v ρ) :
    StoresRight (vc ++ strCode (locOf d) q off .h) ρ (loWord (ρ d) + off) 2 v.toNat ↔
      NarrowRight d q (!isLdstImm off .h) off v 2 ρ := by
  refine narrowStore_iff hvc hd hq (?_ : _ = emit4 (accessWord false false 1 _ _ _))
  have hmag : (magnitude (if !isLdstImm off .h then 0 else off)).toNat < 4096 := by
    split
    · decide
    · rename_i hnear
      have hle := magnitude_lt (b := 255) (by simpa [isLdstImm] using hnear) (by decide)
      omega
  exact congrArg emit4 (@encode_storeT3 0xf8200800 1 (by decide) _ _ _ hmag)

/-! ### Words -/

/-- The offset `_emit_str_i` uses. -/
def strOff (off : Word) : Word := accessOff (off.toInt > 0) (bits (byteOff off) 0 8)

theorem strOff_eq_iff : strOff off = off ↔ within off 255 = true := by
  unfold strOff
  constructor
  · intro h
    rw [← h]
    exact within_accessOff _ _
  · intro h
    have hlt := magnitude_lt (b := 255) h (by decide)
    have hcut : byteOff off = magnitude off := by
      rw [byteOff, ← setWidth_bits_byte, setWidth_bits (by omega)]
    rw [hcut]
    exact accessOff_magnitude h (fun hpos => decide_eq_true hpos)
      (fun hneg => decide_eq_false (by omega))

/-- `_emit_str_i` has no encoding for an offset of zero. -/
theorem not_runs_str_zero {rn rt : Reg} (hn : rn ≠ 15) (ht : badReg rt = false) {more : Code}
    {u t : Core} : ¬Runs (emitStrI rn.toNat rt.toNat 0 ++ more) u t := by
  rw [encode_str]
  exact not_runs_undefined hn ht (Or.inl rfl)

theorem toNat_mod_word (v : BitVec 64) : v.toNat % 256 ^ 4 = (loWord v).toNat := by
  rw [toNat_loWord, show 256 ^ 4 = 2 ^ 32 from rfl]

/-- The offset of an encoding that is not zero is the one given, and near. -/
theorem offset_of_ne_zero {near : Bool} {off : BitVec 32} (h : (if !near then 0 else off) ≠ 0) :
    near = true ∧ off ≠ 0 := by
  cases near with
  | false => exact absurd rfl h
  | true => exact ⟨rfl, h⟩

theorem wordStore_iff (hvc : Provides vc q v wide ρ) (hd : d < 10) (hq : SourcePair q v ρ) :
    StoresRight (vc ++ strCode (locOf d) q off .w) ρ (loWord (ρ d) + off) 4 v.toNat ↔
      off ≠ 0 ∧ within off 255 = true ∧ loWord v = loWord (ρ d) := by
  have h15 : ∀ q : Fin 5, loReg q ≠ 15 := by decide
  by_cases hzero : (if !isLdstImm off .w then 0 else off) = 0
  · refine iff_of_false ?_ ?_
    · refine not_stores_of_not_runs (by decide) fun s hs t hrun => ?_
      obtain ⟨u, hu, -⟩ := hvc.ready hd (sourcePair_ne_three hq) (!isLdstImm off .w) off hs
      rw [strCode, hzero, storeCode, ← List.append_assoc, ← List.append_nil (emitStrI _ _ _)]
        at hrun
      exact not_runs_str_zero (h15 q) (badReg_addrReg _ _) (hu.of_append hrun)
    · rintro ⟨hne, hshort, -⟩
      have hnear : isLdstImm off .w = true := by
        rw [isLdstImm, within_iff]
        rw [within_iff] at hshort
        omega
      rw [hnear] at hzero
      exact hne hzero
  · obtain ⟨hnear, hne⟩ := offset_of_ne_zero hzero
    have hcode : vc ++ strCode (locOf d) q off .w = vc ++ addrCode (locOf d) false off ++
        emit4 (accessWord false false 2 (loReg q) (addrReg (locOf d) false)
          (modeBits true (off.toInt > 0) false ++ bits (byteOff off) 0 8)) := by
      rw [strCode, hnear, List.append_assoc]
      show vc ++ (addrCode (locOf d) false off ++ emitStrI _ _ off) = _
      rw [encode_str, decide_eq_true hne]
      rfl
    have hword : (addrWord d false off ρ).toNat % 256 ^ 4 = (loWord (ρ d)).toNat := by
      rw [addrWord, if_neg (by decide)]
      show (loWord (ρ d) + 0).toNat % 256 ^ 4 = _
      rw [show loWord (ρ d) + 0 = loWord (ρ d) from BitVec.add_zero _]
      exact Nat.mod_eq_of_lt (loWord (ρ d)).isLt
    rw [hcode]
    refine (single_iff hvc hd hq 2 (off.toInt > 0) false (fun h => by cases h) _).trans ?_
    rw [show (2 : Fin 3).val = 2 from rfl, show 2 ^ 2 = 4 from rfl, hword, toNat_mod_word,
      BitVec.toNat_inj]
    constructor
    · rintro ⟨haddr, hlow, -⟩
      rw [hlow, BitVec.add_right_inj] at haddr
      exact ⟨hne, strOff_eq_iff.mp haddr, hlow.symm⟩
    · rintro ⟨-, hshort, hlow⟩
      rw [hlow]
      exact ⟨congrArg _ (strOff_eq_iff.mpr hshort), rfl, fun h => by cases h⟩

/-! ### Doublewords -/

theorem store_dword (m : Mem) (a x y : Word) :
    store32 (store32 m a x) (a + 4) y = storeLE m a 8 (y ++ x : BitVec 64).toNat := by
  have hx := x.isLt
  have hy := y.isLt
  rw [storeLE_add m a (k := 4) (n := 4) (by decide), toNat_pair, store32, store32]
  rw [storeLE_congr m a (v := 2 ^ 32 * y.toNat + x.toNat) (w := x.toNat) (by omega),
    show (2 ^ 32 * y.toNat + x.toNat) / 256 ^ 4 = y.toNat by omega]
  rfl

theorem store_dword_swap (m : Mem) (a x y : Word) :
    store32 (store32 m (a + 4) y) a x = storeLE m a 8 (y ++ x : BitVec 64).toNat := by
  rw [← store_dword]
  funext z
  simp only [store32, storeLE]
  by_cases h : (z - a).toNat < 4
  · rw [if_pos h, if_neg (by bv_omega), if_pos h]
  · rw [if_neg h, if_neg h]

/-- What the code of a doubleword does where both encodings exist. -/
theorem runs_dwordStore (hvc : Provides vc q v true ρ) (hd : d < 10) (hq : SourcePair q v ρ)
    (hnear : within off 4091 = true) (h0 : off ≠ 0) (h4 : off + 4 ≠ 0) {s : Core}
    (hs : HoldsRegs ρ s) :
    ∃ t, Runs (vc ++ strCode (locOf d) q off .dw) s t ∧
      t.mem = store32 (store32 s.mem (loWord v + strOff off) (loWord (ρ d)))
        (hiWord v + strOff (off + 4)) (loWord (ρ d)) ∧
      ∀ i, i ≠ 6 → i ≠ 7 → i ≠ 8 → i ≠ 9 → t.r i = s.r i := by
  have h15 : ∀ q : Fin 5, loReg q ≠ 15 ∧ hiReg q ≠ 15 := by decide
  have hbad := badReg_addrReg (locOf d) false
  have hback : false = true → hiReg q ≠ addrReg (locOf d) false := fun h => by cases h
  have hback' : false = true → loReg q ≠ addrReg (locOf d) false := fun h => by cases h
  have hnear' : isLdstImm off .dw = true := hnear
  obtain ⟨u, hu, hready⟩ := hvc.ready hd (sourcePair_ne_three hq) false off hs
  obtain ⟨w, hw, hmw, hrw⟩ := runs_store 2 (h15 q).1 hbad (off.toInt > 0) false hback'
    (bits (byteOff off) 0 8) u
  obtain ⟨t, ht, hm, hr⟩ := runs_store 2 (h15 q).2 hbad ((off + 4).toInt > 0) false hback
    (bits (byteOff (off + 4)) 0 8) w
  have haddr : u.r (addrReg (locOf d) false) = loWord (ρ d) := by
    rw [hready.addr]
    exact BitVec.add_zero _
  have hregs : t.r = u.r := hr.trans hrw
  refine ⟨t, ?_, ?_, fun i h6 h7 h8 h9 => by rw [hregs, hready.other i h6 h7 h8 h9]⟩
  · rw [strCode, hnear', ← List.append_assoc]
    show Runs (vc ++ addrCode (locOf d) false off ++
      (emitStrI _ _ off ++ emitStrI _ _ (nextWord off))) s t
    rw [(nextWord_eq hnear).1, encode_str, encode_str, decide_eq_true h0, decide_eq_true h4]
    exact hu.append (hw.append ht)
  · rw [show w.r = u.r from hrw, hmw, hready.low, hready.high rfl, haddr, hready.mem] at hm
    exact hm

theorem dword_places {m : Mem} {a b c x : Word} {v : BitVec 64}
    (hm : ∀ k < 8, m (a + BitVec.ofNat 32 k) ≠ BitVec.ofNat 8 (v.toNat / 256 ^ k))
    (h : ∀ y, (y - a).toNat < 8 → store32 (store32 m b x) c x y = storeLE m a 8 v.toNat y) :
    (b = a ∧ c = a + 4 ∨ b = a + 4 ∧ c = a) ∧ v = x ++ x := by
  have hdist : ∀ k < 8, (a + BitVec.ofNat 32 k - a).toNat = k := by
    intro k hk
    rw [BitVec.add_comm, BitVec.add_sub_cancel, BitVec.toNat_ofNat]
    omega
  have hcover : ∀ k < 8, (a + BitVec.ofNat 32 k - b).toNat < 4 ∨
      (a + BitVec.ofNat 32 k - c).toNat < 4 := by
    intro k hk
    by_contra hfar
    obtain ⟨hb, hc⟩ := not_or.mp hfar
    have hbyte := h (a + BitVec.ofNat 32 k) (by rw [hdist k hk]; exact hk)
    rw [storeLE_apply_add m a hk (by omega), store32, storeLE, if_neg hc, store32, storeLE,
      if_neg hb] at hbyte
    exact hm k hk hbyte
  have hplaces := cover_eight hcover
  have hpair : ∀ y, (y - a).toNat < 8 →
      storeLE m a 8 (x ++ x : BitVec 64).toNat y = storeLE m a 8 v.toNat y := by
    intro y hy
    rw [← h y hy]
    rcases hplaces with ⟨rfl, rfl⟩ | ⟨rfl, rfl⟩
    · rw [store_dword]
    · rw [store_dword_swap]
  have hval := storeLE_val_inj (by decide) hpair
  have hv := v.isLt
  have hx := (x ++ x : BitVec 64).isLt
  refine ⟨hplaces, BitVec.eq_of_toNat_eq ?_⟩
  omega

/-- Where a store of a doubleword is right: both words of the value are the
address. -/
theorem dwordStore_iff (hvc : Provides vc q v true ρ) (hd : d < 10) (hq : SourcePair q v ρ) :
    StoresRight (vc ++ strCode (locOf d) q off .dw) ρ (loWord (ρ d) + off) 8 v.toNat ↔
      -255 ≤ off.toInt ∧ off.toInt ≤ 251 ∧ off ≠ 0 ∧ off ≠ -4 ∧
        v = loWord (ρ d) ++ loWord (ρ d) := by
  have h15 : ∀ q : Fin 5, loReg q ≠ 15 ∧ hiReg q ≠ 15 := by decide
  have hneg : off + 4 = 0 → off = -4 := fun h => by bv_omega
  by_cases hzero : (if !isLdstImm off .dw then 0 else off) = 0
  · refine iff_of_false ?_ ?_
    · refine not_stores_of_not_runs (by decide) fun s hs t hrun => ?_
      obtain ⟨u, hu, -⟩ := hvc.ready hd (sourcePair_ne_three hq) (!isLdstImm off .dw) off hs
      rw [strCode, hzero, storeCode, ← List.append_assoc] at hrun
      exact not_runs_str_zero (h15 q).1 (badReg_addrReg _ _) (hu.of_append hrun)
    · rintro ⟨hlow, hhigh, hne, -⟩
      have hnear : isLdstImm off .dw = true := within_iff.mpr (by omega)
      rw [hnear] at hzero
      exact hne hzero
  · obtain ⟨hnear, hne⟩ := offset_of_ne_zero hzero
    obtain ⟨hnext, hsum⟩ := nextWord_eq hnear
    by_cases h4 : off + 4 = 0
    · -- the second store has an offset of zero
      refine iff_of_false ?_ fun h => h.2.2.2.1 (hneg h4)
      refine not_stores_of_not_runs (by decide) fun s hs t hrun => ?_
      obtain ⟨u, hu, -⟩ := hvc.ready hd (sourcePair_ne_three hq) false off hs
      have hbad := badReg_addrReg (locOf d) false
      obtain ⟨w, hw, -⟩ := runs_store 2 (h15 q).1 hbad (off.toInt > 0) false
        (fun h => by cases h) (bits (byteOff off) 0 8) u
      rw [strCode, hnear, ← List.append_assoc] at hrun
      have htail := hu.of_append hrun
      change Runs (emitStrI _ _ off ++ emitStrI _ _ (nextWord off)) u t at htail
      rw [hnext, h4, encode_str, decide_eq_true hne, ← List.append_nil (emitStrI _ _ 0)] at htail
      exact not_runs_str_zero (h15 q).2 hbad (hw.of_append htail)
    · constructor
      · intro hright
        obtain ⟨s, hs, -, -, hmem⟩ := exists_core_misses ρ
          (fun x => ~~~BitVec.ofNat 8 (v.toNat / 256 ^ (x - (loWord (ρ d) + off)).toNat))
          (l := [loWord (ρ d) + off]) (by simp)
        obtain ⟨hmiss, hbytes⟩ := hmem _ (List.mem_singleton.mpr rfl)
        obtain ⟨t, ht, hland⟩ := hright s hs hmiss
        obtain ⟨w, hw, hm, -⟩ := runs_dwordStore hvc hd hq hnear hne h4 hs
        rw [ht.unique hw] at hland
        have hnot : ∀ x : BitVec 8, ~~~x ≠ x := by decide
        obtain ⟨hplaces, hval⟩ := dword_places (m := s.mem) (a := loWord (ρ d) + off)
          (b := loWord v + strOff off) (c := hiWord v + strOff (off + 4)) (x := loWord (ρ d))
          (v := v) (fun k hk => by
            rw [hbytes k hk, BitVec.add_comm (loWord (ρ d) + off), BitVec.add_sub_cancel,
              BitVec.toNat_ofNat, Nat.mod_eq_of_lt (by omega)]
            exact hnot _)
          (fun y hy => by
            rw [← hm]
            refine hland.mem y ?_
            have hin := hmiss (y - (loWord (ρ d) + off)).toNat hy
            rwa [BitVec.ofNat_toNat, BitVec.setWidth_eq, BitVec.add_comm,
              BitVec.sub_add_cancel] at hin)
        rw [hval, loWord_pair, hiWord_pair, BitVec.add_assoc, BitVec.add_right_inj,
          BitVec.add_right_inj, BitVec.add_right_inj, BitVec.add_right_inj] at hplaces
        rcases hplaces with ⟨hlow, hhigh⟩ | ⟨hlow, hhigh⟩
        · have hshort := within_iff.mp (strOff_eq_iff.mp hlow)
          have hshort' := within_iff.mp (strOff_eq_iff.mp hhigh)
          exact ⟨hshort.1, by omega, hne, fun h => h4 (by rw [h]; rfl), hval⟩
        · -- the second offset is short, so the first one is the one that is used
          have hshort : within off 255 = true := hhigh ▸ within_accessOff _ _
          rw [strOff_eq_iff.mpr hshort] at hlow
          bv_omega
      · rintro ⟨hlow, hhigh, -, -, rfl⟩ s hs hmiss
        have hoff : strOff off = off := strOff_eq_iff.mpr (within_iff.mpr (by omega))
        have hoff' : strOff (off + 4) = off + 4 :=
          strOff_eq_iff.mpr (within_iff.mpr (by omega))
        obtain ⟨t, ht, hm, hr⟩ := runs_dwordStore hvc hd hq hnear hne h4 hs
        rw [loWord_pair, hiWord_pair, hoff, hoff', ← BitVec.add_assoc, store_dword] at hm
        exact ⟨t, ht, hs.lands_store hr hm hmiss⟩

end Sizes

/-! ### Where the translation is right -/

def valuePair (i : Inst) : Fin 5 :=
  match i.op with
  | .stx _ => (locOf i.src).core 4
  | _ => 4

def storeValue (i : Inst) (ρ : Regs) : BitVec 64 :=
  match i.op with
  | .stx _ => ρ i.src
  | _ => i.imm.signExtend 64

def valueCode (i : Inst) : Code :=
  match i.op with
  | .stx _ => (armBpfGetReg64 (locOf i.src).row tmpReg2).1
  | .st .dw => emitMovSeImm64 true tmpReg2 i.imm
  | _ => emitMovImm tmpReg2.lo i.imm

/-- Where a store of a value in a pair is right. -/
def StoreSizeRight (size : Size) (d : BitVec 4) (q : Fin 5) (off : Word) (v : BitVec 64)
    (ρ : Regs) : Prop :=
  match size with
  | .b => NarrowRight d q (!isLdstImm off .b) off v 1 ρ
  | .h => NarrowRight d q (!isLdstImm off .h) off v 2 ρ
  | .w => off ≠ 0 ∧ within off 255 = true ∧ loWord v = loWord (ρ d)
  | .dw =>
      -255 ≤ off.toInt ∧ off.toInt ≤ 251 ∧ off ≠ 0 ∧ off ≠ -4 ∧
        v = loWord (ρ d) ++ loWord (ρ d)

/-- Where the translation of a store is right. -/
def StoreRight (i : Inst) (ρ : Regs) : Prop :=
  match i.op with
  | .st size | .stx size =>
      StoreSizeRight size i.dst (valuePair i) (i.offset.signExtend 32) (storeValue i ρ) ρ
  | _ => False

instance (d : BitVec 4) (q : Fin 5) (far : Bool) (off : Word) (v : BitVec 64) (n : ℕ) (ρ : Regs) :
    Decidable (NarrowRight d q far off v n ρ) := by
  unfold NarrowRight
  infer_instance

instance (size : Size) (d : BitVec 4) (q : Fin 5) (off : Word) (v : BitVec 64) (ρ : Regs) :
    Decidable (StoreSizeRight size d q off v ρ) := by
  unfold StoreSizeRight
  split <;> infer_instance

instance (i : Inst) (ρ : Regs) : Decidable (StoreRight i ρ) := by
  unfold StoreRight
  generalize i.op = o
  rcases o <;> infer_instance

theorem storeSize_iff {ρ : Regs} {d : BitVec 4} {q : Fin 5} {v : BitVec 64} {vc : Code}
    (size : Size) (hvc : Provides vc q v (size = .dw) ρ) (hd : d < 10) (hq : SourcePair q v ρ)
    (off : Word) :
    StoresRight (vc ++ strCode (locOf d) q off size) ρ (loWord (ρ d) + off) size.bytes v.toNat ↔
      StoreSizeRight size d q off v ρ := by
  cases size with
  | b => exact byteStore_iff hvc hd hq
  | h => exact halfStore_iff hvc hd hq
  | w => exact wordStore_iff hvc hd hq
  | dw => exact dwordStore_iff hvc hd hq

section Instructions

variable {ρ : Regs} {i : Inst} {size : Size}

theorem provides_reg (e : BitVec 4) (he : e < 10) (ρ : Regs) (wide : Bool) :
    Provides (armBpfGetReg64 (locOf e).row tmpReg2).1 ((locOf e).core 4) (ρ e) wide ρ := by
  intro s hs
  have hlow := loadPair_word (locOf e) 4 false s
  have hhigh := loadPair_word (locOf e) 4 true s
  rw [hs.regs e he] at hlow hhigh
  exact ⟨_, runs_loadPair (locOf e) 4 hs.aligned, loadPair_mem _ _ _, hlow, fun _ => hhigh,
    fun i h8 h9 => loadPair_other (locOf e) s h8 h9⟩

theorem provides_imm (imm : BitVec 32) (ρ : Regs) :
    Provides (emitMovImm tmpReg2.lo imm) 4 (imm.signExtend 64) false ρ := by
  intro s _
  obtain ⟨u, hu, hlow, hm, -, hk⟩ := runs_emitMovImm (show (8 : Reg) < 10 by decide) imm s
  refine ⟨u, hu, hm, ?_, fun h => absurd h Bool.false_ne_true, fun i h8 _ => hk i h8⟩
  rw [show loReg 4 = 8 from rfl, hlow, loWord_signExtend, BitVec.signExtend_eq]

theorem provides_imm64 (imm : BitVec 32) (ρ : Regs) :
    Provides (emitMovSeImm64 true tmpReg2 imm) 4 (imm.signExtend 64) true ρ := by
  intro s _
  obtain ⟨u, hu, hlow, hm, -, hk⟩ := runs_emitMovImm (show (8 : Reg) < 10 by decide)
    ((imm.signExtend 64).setWidth 32) s
  obtain ⟨t, ht, hhigh, hmt, -, hkt⟩ := runs_emitMovImm (show (9 : Reg) < 10 by decide)
    ((imm.signExtend 64 >>> 32).setWidth 32) u
  have hcode : emitMovSeImm64 true tmpReg2 imm = emitMovI64 tmpReg2 (imm.signExtend 64) := by
    rw [← signExtend_eq]
    rfl
  have hput : armBpfPutReg64 tmpReg2 tmpReg2 = [] := rfl
  refine ⟨t, ?_, hmt.trans hm, ?_, fun _ => ?_, fun i h8 h9 => ?_⟩
  · rw [hcode]
    show Runs (emitMovImm _ _ ++ emitMovImm _ _ ++ armBpfPutReg64 tmpReg2 tmpReg2) s t
    rw [hput, List.append_nil]
    exact hu.append ht
  · rw [hkt _ (by decide : loReg 4 ≠ 9)]
    exact hlow
  · exact hhigh
  · rw [hkt i h9, hk i h8]

theorem provides_value (hop : i.op = .st size ∨ i.op = .stx size) (hsrc : i.src < 10) (ρ : Regs) :
    Provides (valueCode i) (valuePair i) (storeValue i ρ) (size = .dw) ρ ∧
      SourcePair (valuePair i) (storeValue i ρ) ρ := by
  rcases hop with hop | hop
  · simp only [valueCode, valuePair, storeValue, hop]
    refine ⟨?_, Or.inl rfl⟩
    cases size with
    | dw => exact provides_imm64 i.imm ρ
    | _ => exact provides_imm i.imm ρ
  · simp only [valueCode, valuePair, storeValue, hop]
    refine ⟨provides_reg i.src hsrc ρ _, ?_⟩
    rcases locOf_cases i.src hsrc with ⟨-, p, hp, hloc⟩ | ⟨-, j, hloc⟩
    · have h4 : ∀ p : Fin 5, p < 3 → p ≠ 4 := by decide
      rw [hloc]
      exact Or.inr ⟨h4 p hp, i.src, hsrc, hloc, rfl⟩
    · rw [hloc]
      exact Or.inl rfl

theorem refines_store_iff {c : Call} (hop : i.op = .st size ∨ i.op = .stx size)
    (hdst : i.dst < 10) (hsrc : i.src < 10)
    (hbounds : boundsCheck c (address (ρ i.src) i) size.bytes = true) {code : Code} :
    RefinesMem c i code ρ (fun s => Misses (s.r 11) (address (ρ i.dst) i) size.bytes) ↔
      StoresRight code ρ (address (ρ i.dst) i) size.bytes (storeValue i ρ).toNat := by
  have hfile : i.regsInFile = true := regsInFile_of_lt hdst fun _ => hsrc
  have hexec : ∀ v : State, v.reg = ρ → execInst c i v = .cont { v with
      mem := storeLE v.mem (address (ρ i.dst) i) size.bytes (storeValue i ρ).toNat } := by
    rintro v rfl
    rcases hop with hop | hop <;>
      simp only [execInst, hfile, hop, execStore, hbounds, storeValue] <;> rfl
  constructor
  · intro h s hs hmiss
    obtain ⟨v', hv', t, ht, hland⟩ := h s hs hmiss ⟨0, ρ, s.mem, 0⟩ rfl rfl
    rw [hexec _ rfl, Next.cont.injEq] at hv'
    subst hv'
    exact ⟨t, ht, hland⟩
  · rintro h s hs hmiss v rfl hm
    obtain ⟨t, ht, hland⟩ := h s hs hmiss
    refine ⟨_, hexec v rfl, t, ht, ?_⟩
    rw [hm]
    exact hland

/-- The translation of a store does what the interpreter does exactly where
`StoreRight` says. -/
theorem refines_strCode_iff {c : Call} (hop : i.op = .st size ∨ i.op = .stx size)
    (hdst : i.dst < 10) (hsrc : i.src < 10)
    (hbounds : boundsCheck c (address (ρ i.src) i) size.bytes = true) :
    RefinesMem c i (valueCode i ++
        strCode (locOf i.dst) (valuePair i) (i.offset.signExtend 32) size) ρ
        (fun s => Misses (s.r 11) (address (ρ i.dst) i) size.bytes) ↔ StoreRight i ρ := by
  obtain ⟨hvc, hq⟩ := provides_value hop hsrc ρ
  have hright : StoreRight i ρ ↔ StoreSizeRight size i.dst (valuePair i)
      (i.offset.signExtend 32) (storeValue i ρ) ρ := by
    rcases hop with hop | hop <;> simp only [StoreRight, hop]
  rw [refines_store_iff hop hdst hsrc hbounds, address_eq, hright]
  exact storeSize_iff size hvc hdst hq _

end Instructions

theorem store_right_iff (p : Input) (pass : Pass) (idx pc : ℕ) (c : Call) (ρ : Regs) (size : Size)
    (hop : (p.insts pc).op = .st size ∨ (p.insts pc).op = .stx size) (hdst : (p.insts pc).dst < 10)
    (hsrc : (p.insts pc).src < 10)
    (hbounds : boundsCheck c (address (ρ (p.insts pc).src) (p.insts pc)) size.bytes = true) :
    RefinesMem c (p.insts pc) (buildInst p pass idx pc).code ρ
        (fun s => Misses (s.r 11) (address (ρ (p.insts pc).dst) (p.insts pc)) size.bytes) ↔
      StoreRight (p.insts pc) ρ := by
  have hcode : (buildInst p pass idx pc).code = valueCode (p.insts pc) ++
      strCode (locOf (p.insts pc).dst) (valuePair (p.insts pc))
        ((p.insts pc).offset.signExtend 32) size := by
    rw [← emitStrReg_code]
    rcases hop with hop | hop
    · simp only [buildInst, built, hop, bpf2a32_eq_row p.behind hdst, valueCode, valuePair,
        ← tmpReg2_eq]
      cases size <;> rfl
    · simp only [buildInst, built, hop, bpf2a32_eq_row p.behind hdst,
        bpf2a32_eq_row p.behind hsrc, valueCode, valuePair, tmpReg2_eq, getReg64_row]
  rw [hcode]
  exact refines_strCode_iff hop hdst hsrc hbounds

/-- `STXW [r1+4], r2`. -/
def stxwR1R2 : Inst :=
  { opcode := (Opcode.stx .w).byte, dst := 1, src := 2, offset := 4, imm := 0 }

theorem stxw_of_its_address :
    RefinesMem (singleCall stxwR1R2) stxwR1R2 (buildInst (single stxwR1R2) genPass 0 0).code
      (fun _ => 0x20000000)
      fun s => Misses (s.r 11) (address 0x20000000 stxwR1R2) 4 :=
  (store_right_iff (single stxwR1R2) genPass 0 0 (singleCall stxwR1R2) (fun _ => 0x20000000) .w
    (Or.inr (opcodeOf_byte (.stx .w))) (by decide) (by decide) rfl).mpr (by decide)

/-- Any other value is not stored: the code stores `0x20000000` at 46. -/
theorem stxw_exchanges_operands :
    ¬RefinesMem (singleCall stxwR1R2) stxwR1R2 (buildInst (single stxwR1R2) genPass 0 0).code
      (fun r => if r = 1 then 0x20000000 else 42)
      fun s => Misses (s.r 11) (address 0x20000000 stxwR1R2) 4 := by
  have hcode : (buildInst (single stxwR1R2) genPass 0 0).code =
      valueCode stxwR1R2 ++ strCode (locOf 1) 4 ((4 : BitVec 16).signExtend 32) .w := by
    decide
  rw [hcode]
  exact (refines_strCode_iff (i := stxwR1R2) (ρ := fun r => if r = 1 then 0x20000000 else 42)
    (Or.inr (opcodeOf_byte (.stx .w))) (by decide) (by decide) rfl).not.mpr (by decide)

end RapidPatch.Jit
