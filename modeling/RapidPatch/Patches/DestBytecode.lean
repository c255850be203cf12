import RapidPatch.Patches.DestOptions
import RapidPatch.Support.Truncation
import RapidPatch.Vm.Checker

/-!
The shipped bytecode of the destination options filter.

There are two programs, which were compiled from one `filter`. The second also
counts its turns and gives up behind 2048 of them. In both, a turn keeps
`option`, `opt_ptr` and `len` in the low bits of r2, r3 and r1 (`DestHead`), so
the body of the loop is verified once and the programs are two frames around
it (`DestFrame`).

Both do what `filter` does, as long as the interpreter lets them
(`amnesia33_exec`). A walk that takes more turns than the budget has room for
is not judged: the interpreter returns its own value, and the drop that
`filter` would have come to is lost. On a header whose options are not too long
this does not happen (`amnesia33_patch`).
-/

namespace RapidPatch.Patches

open RapidPatch.Support RapidPatch.Hotpatch RapidPatch.Vm

/-! ### The programs -/

/-- `AMNESIA33_cve_2020_17445`. -/
def amnesia33Cve17445 : List (BitVec 8) :=
  [0x61, 0x12, 0x00, 0x00, 0x00, 0x00, 0x00, 0x00, 0x61, 0x13, 0x08, 0x00, 0x00, 0x00, 0x00, 0x00,
   0x07, 0x03, 0x00, 0x00, 0x02, 0x00, 0x00, 0x00, 0x71, 0x21, 0x01, 0x00, 0x00, 0x00, 0x00, 0x00,
   0x07, 0x02, 0x00, 0x00, 0x02, 0x00, 0x00, 0x00, 0x67, 0x01, 0x00, 0x00, 0x03, 0x00, 0x00, 0x00,
   0x47, 0x01, 0x00, 0x00, 0x06, 0x00, 0x00, 0x00, 0x18, 0x00, 0x00, 0x00, 0x00, 0x00, 0x00, 0x00,
   0x00, 0x00, 0x00, 0x00, 0x01, 0x00, 0x00, 0x00, 0x18, 0x04, 0x00, 0x00, 0xff, 0xff, 0xff, 0xff,
   0x00, 0x00, 0x00, 0x00, 0x00, 0x00, 0x00, 0x00, 0x71, 0x25, 0x01, 0x00, 0x00, 0x00, 0x00, 0x00,
   0x07, 0x05, 0x00, 0x00, 0x02, 0x00, 0x00, 0x00, 0xbf, 0x57, 0x00, 0x00, 0x00, 0x00, 0x00, 0x00,
   0x57, 0x07, 0x00, 0x00, 0xff, 0x00, 0x00, 0x00, 0x15, 0x07, 0x11, 0x00, 0x00, 0x00, 0x00, 0x00,
   0xbf, 0x36, 0x00, 0x00, 0x00, 0x00, 0x00, 0x00, 0x0f, 0x76, 0x00, 0x00, 0x00, 0x00, 0x00, 0x00,
   0xbf, 0x67, 0x00, 0x00, 0x00, 0x00, 0x00, 0x00, 0x67, 0x07, 0x00, 0x00, 0x20, 0x00, 0x00, 0x00,
   0x77, 0x07, 0x00, 0x00, 0x20, 0x00, 0x00, 0x00, 0x67, 0x03, 0x00, 0x00, 0x20, 0x00, 0x00, 0x00,
   0x77, 0x03, 0x00, 0x00, 0x20, 0x00, 0x00, 0x00, 0x3d, 0x73, 0x09, 0x00, 0x00, 0x00, 0x00, 0x00,
   0x1f, 0x51, 0x00, 0x00, 0x00, 0x00, 0x00, 0x00, 0x57, 0x05, 0x00, 0x00, 0xff, 0x00, 0x00, 0x00,
   0x0f, 0x52, 0x00, 0x00, 0x00, 0x00, 0x00, 0x00, 0xb7, 0x04, 0x00, 0x00, 0x00, 0x00, 0x00, 0x00,
   0xbf, 0x15, 0x00, 0x00, 0x00, 0x00, 0x00, 0x00, 0x57, 0x05, 0x00, 0x00, 0xff, 0x00, 0x00, 0x00,
   0xbf, 0x63, 0x00, 0x00, 0x00, 0x00, 0x00, 0x00, 0xb7, 0x00, 0x00, 0x00, 0x00, 0x00, 0x00, 0x00,
   0x55, 0x05, 0xe6, 0xff, 0x00, 0x00, 0x00, 0x00, 0x4f, 0x40, 0x00, 0x00, 0x00, 0x00, 0x00, 0x00,
   0x95, 0x00, 0x00, 0x00, 0x00, 0x00, 0x00, 0x00]

/-- `AMNESIA33_cve_2020_17445_SFI`. -/
def amnesia33Cve17445Sfi : List (BitVec 8) :=
  [0xb7, 0x08, 0x00, 0x00, 0x00, 0x00, 0x00, 0x00, 0x61, 0x12, 0x00, 0x00, 0x00, 0x00, 0x00, 0x00,
   0x61, 0x13, 0x08, 0x00, 0x00, 0x00, 0x00, 0x00, 0x07, 0x03, 0x00, 0x00, 0x02, 0x00, 0x00, 0x00,
   0x71, 0x21, 0x01, 0x00, 0x00, 0x00, 0x00, 0x00, 0x07, 0x02, 0x00, 0x00, 0x02, 0x00, 0x00, 0x00,
   0x67, 0x01, 0x00, 0x00, 0x03, 0x00, 0x00, 0x00, 0x47, 0x01, 0x00, 0x00, 0x06, 0x00, 0x00, 0x00,
   0x18, 0x00, 0x00, 0x00, 0xff, 0xff, 0xff, 0xff, 0x00, 0x00, 0x00, 0x00, 0x00, 0x00, 0x00, 0x00,
   0x18, 0x04, 0x00, 0x00, 0x00, 0x00, 0x00, 0x00, 0x00, 0x00, 0x00, 0x00, 0x01, 0x00, 0x00, 0x00,
   0x71, 0x25, 0x01, 0x00, 0x00, 0x00, 0x00, 0x00, 0x07, 0x05, 0x00, 0x00, 0x02, 0x00, 0x00, 0x00,
   0xbf, 0x57, 0x00, 0x00, 0x00, 0x00, 0x00, 0x00, 0x57, 0x07, 0x00, 0x00, 0xff, 0x00, 0x00, 0x00,
   0x15, 0x07, 0x13, 0x00, 0x00, 0x00, 0x00, 0x00, 0xbf, 0x36, 0x00, 0x00, 0x00, 0x00, 0x00, 0x00,
   0x0f, 0x76, 0x00, 0x00, 0x00, 0x00, 0x00, 0x00, 0xbf, 0x67, 0x00, 0x00, 0x00, 0x00, 0x00, 0x00,
   0x67, 0x07, 0x00, 0x00, 0x20, 0x00, 0x00, 0x00, 0x77, 0x07, 0x00, 0x00, 0x20, 0x00, 0x00, 0x00,
   0x67, 0x03, 0x00, 0x00, 0x20, 0x00, 0x00, 0x00, 0x77, 0x03, 0x00, 0x00, 0x20, 0x00, 0x00, 0x00,
   0x3d, 0x73, 0x0b, 0x00, 0x00, 0x00, 0x00, 0x00, 0x1f, 0x51, 0x00, 0x00, 0x00, 0x00, 0x00, 0x00,
   0x57, 0x05, 0x00, 0x00, 0xff, 0x00, 0x00, 0x00, 0x0f, 0x52, 0x00, 0x00, 0x00, 0x00, 0x00, 0x00,
   0xb7, 0x04, 0x00, 0x00, 0x00, 0x00, 0x00, 0x00, 0xbf, 0x15, 0x00, 0x00, 0x00, 0x00, 0x00, 0x00,
   0x57, 0x05, 0x00, 0x00, 0xff, 0x00, 0x00, 0x00, 0xbf, 0x63, 0x00, 0x00, 0x00, 0x00, 0x00, 0x00,
   0xb7, 0x00, 0x00, 0x00, 0x00, 0x00, 0x00, 0x00, 0x07, 0x08, 0x00, 0x00, 0x01, 0x00, 0x00, 0x00,
   0x65, 0x08, 0x03, 0x00, 0x00, 0x08, 0x00, 0x00, 0x55, 0x05, 0xe4, 0xff, 0x00, 0x00, 0x00, 0x00,
   0x4f, 0x40, 0x00, 0x00, 0x00, 0x00, 0x00, 0x00, 0x95, 0x00, 0x00, 0x00, 0x00, 0x00, 0x00, 0x00,
   0xb7, 0x00, 0x00, 0x00, 0x01, 0x00, 0x00, 0x00, 0x67, 0x00, 0x00, 0x00, 0x20, 0x00, 0x00, 0x00,
   0x95, 0x00, 0x00, 0x00, 0x00, 0x00, 0x00, 0x00]

/-- One option. The loop is left at `out` if the option has no length, or if
`opt_ptr` wraps around. -/
def destTurn (base out : ℕ) : List Inst :=
  [load .b 5 2 1, aluImm .add 5 2, aluReg .mov 7 5, aluImm .and 7 0xff,
   branchImm .jeq 7 0 (offsetTo (base + 4) out), aluReg .mov 6 3, aluReg .add 6 7, aluReg .mov 7 6,
   aluImm .lsh 7 0x20, aluImm .rsh 7 0x20, aluImm .lsh 3 0x20, aluImm .rsh 3 0x20,
   branchReg .jge 3 7 (offsetTo (base + 12) out), aluReg .sub 1 5,
   aluImm .and 5 0xff, aluReg .add 2 5, aluImm .mov 4 0, aluReg .mov 5 1, aluImm .and 5 0xff,
   aluReg .mov 3 6, aluImm .mov 0 0]

def destListing : List Inst :=
  [load .w 2 1 0, load .w 3 1 8, aluImm .add 3 2, load .b 1 2 1, aluImm .add 2 2, aluImm .lsh 1 3,
   aluImm .or 1 6, loadWide 0 0, wideHigh 1, loadWide 4 0xffffffff, wideHigh 0] ++
    destTurn 11 33 ++
    [branchImm .jne 5 0 0xffe6, aluReg .or 0 4, exitInst]

def destSfiListing : List Inst :=
  [aluImm .mov 8 0, load .w 2 1 0, load .w 3 1 8, aluImm .add 3 2, load .b 1 2 1, aluImm .add 2 2,
   aluImm .lsh 1 3, aluImm .or 1 6, loadWide 0 0xffffffff, wideHigh 0, loadWide 4 0, wideHigh 1] ++
    destTurn 12 36 ++
    [aluImm .add 8 1, branchImm .jsgt 8 0x800 3, branchImm .jne 5 0 0xffe4, aluReg .or 0 4,
     exitInst, aluImm .mov 0 1, aluImm .lsh 0 0x20, exitInst]

theorem disassemble_dest : disassemble amnesia33Cve17445 = destListing := rfl

theorem disassemble_destSfi : disassemble amnesia33Cve17445Sfi = destSfiListing := rfl

/-! ### One option -/

section Turn

variable {mem : Mem} {u : DestWalk} {s : State} {c : Call} {base out : ℕ}

/-- Where an option is looked at, r2 is `option`, r3 `opt_ptr` and r1 `len`, each
in the low bits. -/
structure DestHead (mem : Mem) (u : DestWalk) (s : State) : Prop where
  mem : s.mem = mem
  option : (s.reg 2).setWidth 32 = BitVec.ofNat 32 u.option
  optPtr : (s.reg 3).setWidth 32 = u.optPtr
  len : (s.reg 1).setWidth 8 = u.len

theorem DestHead.at (h : DestHead mem u s) (pc : BitVec 16) : DestHead mem u { s with pc := pc } :=
  ⟨h.mem, h.option, h.optPtr, h.len⟩

/-- The registers that the next blocks leave alone. -/
def SameResult (s t : State) : Prop := t.reg 0 = s.reg 0 ∧ t.reg 4 = s.reg 4 ∧ t.reg 8 = s.reg 8

theorem dest_optLen (h : Runs base (destTurn base out) c) (hs : DestHead mem u s)
    (hpc : s.pc = BitVec.ofNat 16 (base + 0)) :
    After (turn c) 4 s fun t => t.pc = BitVec.ofNat 16 (base + 4) ∧ DestHead mem u t ∧
      SameResult s t ∧ (t.reg 5).setWidth 8 = optLen mem u.option ∧
      t.reg 7 = (optLen mem u.option).setWidth 64 := by
  have hblock : After (turn c) 4 s fun t => t.pc = BitVec.ofNat 16 (base + 4) ∧ t.mem = s.mem ∧
      t.reg 1 = s.reg 1 ∧ t.reg 2 = s.reg 2 ∧ t.reg 3 = s.reg 3 ∧ SameResult s t ∧
      t.reg 5 = BitVec.ofNat 64 (loadLE s.mem ((s.reg 2 + 1).setWidth 32) Size.b.bytes) + 2 ∧
      t.reg 7 = t.reg 5 &&& 0xff :=
    h.block 0 4 hpc rfl rfl rfl
      ⟨rfl, rfl, rfl, rfl, rfl, ⟨rfl, rfl, rfl⟩, rfl, rfl⟩
  refine hblock.mono ?_
  rintro t ⟨htpc, hmem, h1, h2, h3, hsame, h5, h7⟩
  have hlen : (t.reg 5).setWidth 8 = optLen mem u.option := by
    rw [h5, ofNat_loadLE_byte, BitVec.setWidth_add _ _ (by decide),
      BitVec.setWidth_add _ _ (by decide), hs.option, hs.mem, optLen, BitVec.ofNat_add]
    simp
  refine ⟨htpc, ⟨hmem.trans hs.mem, h2 ▸ hs.option, h3 ▸ hs.optPtr, h1 ▸ hs.len⟩, hsame, hlen, ?_⟩
  rw [h7, ← hlen]
  exact and_mask (t.reg 5) 8

/-- The sums with and without the option, as numbers of 32 bits, are in r7 and
r3, and the new `opt_ptr` is in r6. -/
theorem dest_sums (h : Runs base (destTurn base out) c) (hs : DestHead mem u s)
    (hpc : s.pc = BitVec.ofNat 16 (base + 5))
    (h7 : s.reg 7 = (optLen mem u.option).setWidth 64) :
    After (turn c) 7 s fun t => t.pc = BitVec.ofNat 16 (base + 12) ∧ DestHead mem u t ∧
      SameResult s t ∧ t.reg 5 = s.reg 5 ∧
      (t.reg 6).setWidth 32 = (u.advance mem).optPtr ∧
      t.reg 7 = (u.advance mem).optPtr.setWidth 64 ∧ t.reg 3 = u.optPtr.setWidth 64 := by
  have hblock : After (turn c) 7 s fun t => t.pc = BitVec.ofNat 16 (base + 12) ∧ t.mem = s.mem ∧
      t.reg 1 = s.reg 1 ∧ t.reg 2 = s.reg 2 ∧ SameResult s t ∧ t.reg 5 = s.reg 5 ∧
      t.reg 6 = s.reg 3 + s.reg 7 ∧ t.reg 7 = (s.reg 3 + s.reg 7) <<< 32 >>> 32 ∧
      t.reg 3 = s.reg 3 <<< 32 >>> 32 :=
    h.block 5 7 hpc rfl rfl rfl ⟨rfl, rfl, rfl, rfl, ⟨rfl, rfl, rfl⟩, rfl, rfl, rfl, rfl⟩
  refine hblock.mono ?_
  rintro t ⟨htpc, hmem, h1, h2, hsame, h5, h6, h7', h3⟩
  have hsum : (s.reg 3 + s.reg 7).setWidth 32 = (u.advance mem).optPtr := by
    rw [BitVec.setWidth_add _ _ (by decide), hs.optPtr, h7]
    simp [DestWalk.advance]
  have hsum' : t.reg 7 = (u.advance mem).optPtr.setWidth 64 := by
    rw [h7', ← hsum]
    exact ushiftRight_shiftLeft (k := 32) _ (by decide)
  have hold : t.reg 3 = u.optPtr.setWidth 64 := by
    rw [h3, ← hs.optPtr]
    exact ushiftRight_shiftLeft (k := 32) _ (by decide)
  refine ⟨htpc, ⟨hmem.trans hs.mem, h2 ▸ hs.option, ?_, h1 ▸ hs.len⟩, hsame, h5, h6 ▸ hsum, hsum',
    hold⟩
  rw [hold, setWidth_setWidth_self _ (by decide)]

theorem dest_advance (h : Runs base (destTurn base out) c) (hs : DestHead mem u s)
    (hpc : s.pc = BitVec.ofNat 16 (base + 13))
    (h5 : (s.reg 5).setWidth 8 = optLen mem u.option)
    (h6 : (s.reg 6).setWidth 32 = (u.advance mem).optPtr) :
    After (turn c) 8 s fun t => t.pc = BitVec.ofNat 16 (base + 21) ∧
      DestHead mem (u.advance mem) t ∧ t.reg 0 = 0 ∧ t.reg 4 = 0 ∧
      t.reg 5 = (u.advance mem).len.setWidth 64 ∧ t.reg 8 = s.reg 8 := by
  have hblock : After (turn c) 8 s fun t => t.pc = BitVec.ofNat 16 (base + 21) ∧ t.mem = s.mem ∧
      t.reg 1 = s.reg 1 - s.reg 5 ∧ t.reg 2 = s.reg 2 + (s.reg 5 &&& 0xff) ∧ t.reg 3 = s.reg 6 ∧
      t.reg 0 = 0 ∧ t.reg 4 = 0 ∧ t.reg 5 = t.reg 1 &&& 0xff ∧ t.reg 8 = s.reg 8 :=
    h.block 13 8 hpc rfl rfl rfl ⟨rfl, rfl, rfl, rfl, rfl, rfl, rfl, rfl, rfl⟩
  refine hblock.mono ?_
  rintro t ⟨htpc, hmem, h1, h2, h3, h0, h4, h5', h8⟩
  have hlen : (t.reg 1).setWidth 8 = (u.advance mem).len := by
    rw [h1, setWidth_sub _ _ (by decide), hs.len, h5]
    rfl
  have hcut : s.reg 5 &&& 0xff = (optLen mem u.option).setWidth 64 := by
    rw [← h5]
    exact and_mask (s.reg 5) 8
  refine ⟨htpc, ⟨hmem.trans hs.mem, ?_, h3 ▸ h6, hlen⟩, h0, h4, ?_, h8⟩
  · rw [h2, hcut, BitVec.setWidth_add _ _ (by decide), hs.option,
      BitVec.setWidth_setWidth_of_le _ (by decide)]
    simp [DestWalk.advance, BitVec.ofNat_add]
  · rw [h5', ← hlen]
    exact and_mask (t.reg 1) 8

theorem dest_jeq (ol : BitVec 8) (x : BitVec 64) :
    jmpTaken .jeq .imm (ol.setWidth 64) x 0 = decide (ol = 0) := by
  rw [Bool.eq_iff_iff, decide_eq_true_iff]
  show (ol.setWidth 64 == 0) = true ↔ _
  rw [beq_iff_eq]
  constructor
  · intro h
    have hcut := congrArg (BitVec.setWidth 8) h
    rwa [BitVec.setWidth_setWidth_of_le _ (by decide), BitVec.setWidth_eq] at hcut
  · rintro rfl
    rfl

theorem dest_jge (p q : BitVec 32) (imm : BitVec 32) :
    jmpTaken .jge .reg (p.setWidth 64) (q.setWidth 64) imm = decide (q ≤ p) := by
  have hp := p.isLt
  have hq := q.isLt
  rw [Bool.eq_iff_iff, decide_eq_true_iff, BitVec.le_def]
  show (q.setWidth 64).ule (p.setWidth 64) = true ↔ _
  rw [BitVec.ule, decide_eq_true_iff, BitVec.toNat_setWidth, BitVec.toNat_setWidth]
  omega

/-- Where the filter has nothing against the option, it is walked over. -/
theorem dest_turn (h : Runs base (destTurn base out) c) (hs : DestHead mem u s)
    (hpc : s.pc = BitVec.ofNat 16 (base + 0)) (hgo : ¬Intercepts mem u) :
    After (turn c) 21 s fun t => t.pc = BitVec.ofNat 16 (base + 21) ∧
      DestHead mem (u.advance mem) t ∧ t.reg 0 = 0 ∧ t.reg 4 = 0 ∧
      t.reg 5 = (u.advance mem).len.setWidth 64 ∧ t.reg 8 = s.reg 8 := by
  have hpos := optLen_pos_of_not_intercepts hgo
  refine (dest_optLen h hs hpc).seq (n := 17) ?_
  rintro t ⟨htpc, ht, ⟨-, -, h8⟩, h5, h7⟩
  have hnone : jmpTaken .jeq .imm (t.reg 7) (t.reg 0) 0 = false := by
    rw [h7, dest_jeq, decide_eq_false_iff_not]
    intro hzero
    rw [hzero] at hpos
    exact Nat.lt_irrefl 0 hpos
  refine .head (h.falls 4 htpc rfl rfl hnone) ?_
  refine (dest_sums h (ht.at _) rfl h7).seq (n := 9) ?_
  rintro v ⟨hvpc, hv, ⟨-, -, h8'⟩, h5', h6, h7', h3⟩
  have hwraps : jmpTaken .jge .reg (v.reg 3) (v.reg 7) 0 = false := by
    rw [h3, h7', dest_jge, decide_eq_false_iff_not]
    exact fun hle => hgo (intercepts_iff.mpr hle)
  refine .head (h.falls 12 hvpc rfl rfl hwraps) ?_
  refine (dest_advance h (hv.at _) rfl (h5'.symm ▸ h5) h6).mono ?_
  rintro w ⟨hwpc, hw, h0, h4, hw5, hw8⟩
  exact ⟨hwpc, hw, h0, h4, hw5, hw8.trans (h8'.trans h8)⟩

/-- Where it has, the loop is left with what was in r0 and r4. -/
theorem dest_intercept (h : Runs base (destTurn base out) c) (hs : DestHead mem u s)
    (hpc : s.pc = BitVec.ofNat 16 (base + 0)) (hguard : Intercepts mem u) :
    Within (turn c) 13 s fun t => t.pc = BitVec.ofNat 16 out ∧ SameResult s t := by
  refine (dest_optLen h hs hpc).seqWithin (n := 9) ?_
  rintro t ⟨htpc, ht, hsame, -, h7⟩
  by_cases hzero : optLen mem u.option = 0
  · have htaken : jmpTaken .jeq .imm (t.reg 7) (t.reg 0) 0 = true := by
      rw [h7, dest_jeq, decide_eq_true hzero]
    exact .head (h.taken 4 out htpc rfl rfl rfl htaken) (.refl ⟨rfl, hsame⟩)
  · have hfalls : jmpTaken .jeq .imm (t.reg 7) (t.reg 0) 0 = false := by
      rw [h7, dest_jeq, decide_eq_false hzero]
    refine .head (h.falls 4 htpc rfl rfl hfalls) ?_
    refine (dest_sums h (ht.at _) rfl h7).seqWithin (n := 1) ?_
    rintro v ⟨hvpc, -, ⟨h0, h4, h8⟩, -, -, h7', h3⟩
    have htaken : jmpTaken .jge .reg (v.reg 3) (v.reg 7) 0 = true := by
      rw [h3, h7', dest_jge, decide_eq_true_iff]
      exact intercepts_iff.mp hguard
    exact .head (h.taken 12 out hvpc rfl rfl rfl htaken)
      (.refl ⟨rfl, h0.trans hsame.1, h4.trans hsame.2.1, h8.trans hsame.2.2⟩)

end Turn

/-! ### The loop -/

/-- What the programs have around the option: they load the result of a drop,
go back behind the option, and return what is in r0 and r4. `Counts` is what
the counter, if there is one, says behind some turns. -/
structure DestFrame (c : Call) (base head out back limit : ℕ)
    (Counts : ℕ → BitVec 64 → Prop) : Prop where
  code : Runs base (destTurn base out) c
  loads : ∀ s, s.pc = BitVec.ofNat 16 head → After (turn c) 2 s fun t =>
    t.pc = BitVec.ofNat 16 (base + 0) ∧ t.mem = s.mem ∧ t.reg 1 = s.reg 1 ∧ t.reg 2 = s.reg 2 ∧
      t.reg 3 = s.reg 3 ∧ t.reg 8 = s.reg 8 ∧ t.reg 0 ||| t.reg 4 = 0x1ffffffff
  back : ∀ i < limit, ∀ s, s.pc = BitVec.ofNat 16 (base + 21) → Counts i (s.reg 8) →
    After (turn c) back s fun t =>
      t.pc = BitVec.ofNat 16 (if s.reg 5 = 0 then out else head) ∧ t.mem = s.mem ∧
        t.reg 0 = s.reg 0 ∧ t.reg 1 = s.reg 1 ∧ t.reg 2 = s.reg 2 ∧ t.reg 3 = s.reg 3 ∧
        t.reg 4 = s.reg 4 ∧ Counts (i + 1) (t.reg 8)
  out : ∀ s, s.pc = BitVec.ofNat 16 out →
    HaltsWithin (turn c) 1 s (.returned .exit (s.reg 0 ||| s.reg 4))

/-- Where the walk is, behind some turns. -/
structure DestAt (mem : Mem) (head out : ℕ) (Counts : ℕ → BitVec 64 → Prop) (i : ℕ)
    (u : DestWalk) (s : State) : Prop where
  more : u.len ≠ 0 → s.pc = BitVec.ofNat 16 head ∧ DestHead mem u s
  done : u.len = 0 → s.pc = BitVec.ofNat 16 out ∧ s.reg 0 = 0 ∧ s.reg 4 = 0
  counts : Counts i (s.reg 8)

section Loop

variable {mem : Mem} {u v : DestWalk} {s : State} {c : Call} {base head out back limit i : ℕ}
  {Counts : ℕ → BitVec 64 → Prop}

/-- The result of a drop is loaded. -/
theorem DestFrame.enter (h : DestFrame c base head out back limit Counts)
    (hs : DestAt mem head out Counts i u s) (hlen : u.len ≠ 0) :
    After (turn c) 2 s fun t => t.pc = BitVec.ofNat 16 (base + 0) ∧ DestHead mem u t ∧
      Counts i (t.reg 8) ∧ t.reg 0 ||| t.reg 4 = 0x1ffffffff := by
  obtain ⟨hpc, hhead⟩ := hs.more hlen
  refine (h.loads s hpc).mono ?_
  rintro t ⟨htpc, hmem, h1, h2, h3, h8, hor⟩
  exact ⟨htpc, ⟨hmem.trans hhead.mem, h2 ▸ hhead.option, h3 ▸ hhead.optPtr, h1 ▸ hhead.len⟩,
    h8.symm ▸ hs.counts, hor⟩

theorem DestFrame.turn (h : DestFrame c base head out back limit Counts)
    (hi : i < limit) (hs : DestAt mem head out Counts i u s)
    (hstep : destFilterStep mem u = .cont v) :
    After (Vm.turn c) (2 + (21 + back)) s (DestAt mem head out Counts (i + 1) v) := by
  have hlen : u.len ≠ 0 := by
    intro hzero
    rw [destFilterStep, if_pos hzero] at hstep
    cases hstep
  rw [destFilterStep, if_neg hlen] at hstep
  split at hstep
  · cases hstep
  · rename_i hgo
    cases hstep
    refine (h.enter hs hlen).seq ?_
    rintro t ⟨htpc, ht, hcount, -⟩
    refine (dest_turn h.code ht htpc hgo).seq ?_
    rintro w ⟨hwpc, hw, h0, h4, h5, h8⟩
    refine (h.back i hi w hwpc (h8.symm ▸ hcount)).mono ?_
    rintro x ⟨hxpc, hmem, h0', h1', h2', h3', h4', hcount'⟩
    have hzero : w.reg 5 = 0 ↔ (u.advance mem).len = 0 := by
      rw [h5]
      have hjeq := dest_jeq (u.advance mem).len 0
      rw [Bool.eq_iff_iff, decide_eq_true_iff] at hjeq
      exact beq_iff_eq.symm.trans hjeq
    refine ⟨fun hne => ⟨?_, hmem.trans hw.mem, h2' ▸ hw.option, h3' ▸ hw.optPtr, h1' ▸ hw.len⟩,
      fun hend => ⟨?_, h0'.trans h0, h4'.trans h4⟩, hcount'⟩
    · rw [hxpc, if_neg (fun hend => hne (hzero.mp hend))]
    · rw [hxpc, if_pos (hzero.mpr hend)]

/-- Where the walk is done, the call passes. -/
theorem DestFrame.pass (h : DestFrame c base head out back limit Counts)
    (hs : DestAt mem head out Counts i u s) (hlen : u.len = 0) :
    HaltsWithin (Vm.turn c) 1 s (.returned .exit (setReturn 0 0)) := by
  obtain ⟨hpc, h0, h4⟩ := hs.done hlen
  have hout := h.out s hpc
  rwa [h0, h4] at hout

/-- Where the guard intercepts, it is dropped. -/
theorem DestFrame.drop (h : DestFrame c base head out back limit Counts)
    (hs : DestAt mem head out Counts i u s) (hlen : u.len ≠ 0) (hguard : Intercepts mem u) :
    HaltsWithin (Vm.turn c) 16 s
      (.returned .exit (setReturn 1 ((-1 : BitVec 32).setWidth 64))) := by
  refine (h.enter hs hlen).seqWithin (n := 14) ?_
  rintro t ⟨htpc, ht, -, hor⟩
  refine (dest_intercept h.code ht htpc hguard).seq (n := 1) ?_
  rintro w ⟨hwpc, h0, h4, -⟩
  have hout := h.out w hwpc
  rwa [h0, h4, hor] at hout

theorem DestFrame.implements (h : DestFrame c base head out back limit Counts) :
    Implements (destFilterStep mem) (Vm.turn c) (DestAt mem head out Counts) limit
      (2 + (21 + back)) (2 + (21 + back)) 16 (.returned .exit) where
  turn i hi u s v hs hstep := ⟨_, Nat.le_refl _, Nat.le_refl _, h.turn hi hs hstep⟩
  halt i _ u s a hs hstop := by
    rw [destFilterStep] at hstop
    split at hstop
    · rename_i hlen
      cases hstop
      exact (h.pass hs hlen).le (by decide)
    · rename_i hlen
      split at hstop
      · rename_i hguard
        cases hstop
        exact h.drop hs hlen hguard
      · cases hstop

/-- What the interpreter returns for a walk of which its budget allows some
turns. -/
def destOutcome (c : Call) (mem : Mem) (u : DestWalk) (limit : ℕ) : Outcome :=
  match run (destFilterStep mem) limit u with
  | .stop ret => .returned .exit ret
  | .cont v =>
      if v.len = 0 then .returned .exit (setReturn 0 0)
      else .returned .budget (c.oneShl32.signExtend 64)

/-- The last turn that the budget allows may end the walk; an option behind it
is not judged any more. -/
theorem DestFrame.exec (h : DestFrame c base head out back limit Counts) (pre : ℕ)
    {reg : BitVec 4 → BitVec 64}
    (hstart : After (Vm.turn c) pre (initState c reg mem) (DestAt mem head out Counts 0 u))
    (hpass : pre + (23 + back) * limit + 1 ≤ maxIters + 1)
    (hover : maxIters + 2 ≤ pre + (23 + back) * limit + 6) :
    ebpfVmExec c reg mem = .stop (destOutcome c mem u limit) := by
  have hcost : 2 + (21 + back) = 23 + back := by omega
  obtain ⟨s, hs, hat⟩ := hstart
  have hpre : After (Vm.turn c) pre (initState c reg mem) (· = s) := ⟨s, hs, rfl⟩
  rw [destOutcome]
  cases hrun : run (destFilterStep mem) limit u with
  | stop ret =>
      -- the walk stops behind fewer turns
      obtain ⟨k, v, hk, hcont, hstop⟩ := exists_run_of_stop hrun
      have hhalt := h.implements.halts hat (Nat.le_of_lt hk) hcont hstop
      refine ebpfVmExec_of_halts (hpre.seqWithin fun t ht => ht ▸ hhalt) ?_
      have hturns : (23 + back) * (k + 1) ≤ (23 + back) * limit := Nat.mul_le_mul_left _ hk
      rw [hcost]
      rw [Nat.mul_succ] at hturns
      omega
  | cont v =>
      obtain ⟨n, hlo, hhi, t, ht, hv⟩ := h.implements.turns hat (Nat.le_refl limit) hrun
      rw [hcost] at hlo hhi
      have hturns : After (Vm.turn c) (pre + n) (initState c reg mem) (· = t) :=
        hpre.seq fun s' hs' => ⟨t, by rw [hs', ht], rfl⟩
      by_cases hlen : v.len = 0
      · simp only [if_pos hlen]
        refine ebpfVmExec_of_halts (hturns.seqWithin fun t' ht' => ht' ▸ h.pass hv hlen) ?_
        omega
      · simp only [if_neg hlen]
        have hnext : After (Vm.turn c) 6 t fun _ => True := by
          refine (h.enter hv hlen).seq (n := 4) ?_
          rintro w ⟨hwpc, hw, -, -⟩
          exact (dest_optLen h.code hw hwpc).mono fun _ _ => trivial
        exact ebpfVmExec_of_after (hturns.seq fun t' ht' => ht' ▸ hnext) (by omega)

end Loop

/-! ### The two programs -/

section Programs

variable {mem : Mem} {c : Call} {rest : List (BitVec 8)}

theorem dest_frame (h : Runs 0 destListing c) :
    DestFrame c 11 7 33 1 1365 fun _ _ => True where
  code := h.slice 11 21 rfl rfl
  loads s hpc := by
    have hblock : After (turn c) 2 s fun t => t.pc = BitVec.ofNat 16 11 ∧ t.mem = s.mem ∧
        t.reg 1 = s.reg 1 ∧ t.reg 2 = s.reg 2 ∧ t.reg 3 = s.reg 3 ∧ t.reg 8 = s.reg 8 ∧
        t.reg 0 = 0x100000000 ∧ t.reg 4 = 0xffffffff :=
      h.block 7 4 hpc rfl rfl rfl ⟨rfl, rfl, rfl, rfl, rfl, rfl, rfl, rfl⟩
    refine hblock.mono ?_
    rintro t ⟨htpc, hmem, h1, h2, h3, h8, h0, h4⟩
    exact ⟨htpc, hmem, h1, h2, h3, h8, by rw [h0, h4]; rfl⟩
  back i _ s hpc _ := by
    by_cases hzero : s.reg 5 = 0
    · have hfalls : jmpTaken .jne .imm (s.reg 5) (s.reg 0) 0 = false := by
        rw [hzero]
        rfl
      exact .head (h.falls 32 hpc rfl rfl hfalls)
        (.refl ⟨by rw [if_pos hzero], rfl, rfl, rfl, rfl, rfl, rfl, trivial⟩)
    · have htaken : jmpTaken .jne .imm (s.reg 5) (s.reg 0) 0 = true := bne_iff_ne.mpr hzero
      exact .head (h.taken 32 7 hpc rfl rfl rfl htaken)
        (.refl ⟨by rw [if_neg hzero], rfl, rfl, rfl, rfl, rfl, rfl, trivial⟩)
  out s hpc := by
    have hor : After (turn c) 1 s fun t => t.pc = BitVec.ofNat 16 34 ∧
        t.reg 0 = s.reg 0 ||| s.reg 4 := h.block 33 1 hpc rfl rfl rfl ⟨rfl, rfl⟩
    exact hor.seqWithin (n := 0) fun t ht => .refl (ht.2 ▸ h.exit 34 ht.1 rfl)

theorem destSfi_frame (h : Runs 0 destSfiListing c) :
    DestFrame c 12 8 36 3 1260 fun i x => x = BitVec.ofNat 64 i where
  code := h.slice 12 21 rfl rfl
  loads s hpc := by
    have hblock : After (turn c) 2 s fun t => t.pc = BitVec.ofNat 16 12 ∧ t.mem = s.mem ∧
        t.reg 1 = s.reg 1 ∧ t.reg 2 = s.reg 2 ∧ t.reg 3 = s.reg 3 ∧ t.reg 8 = s.reg 8 ∧
        t.reg 0 = 0xffffffff ∧ t.reg 4 = 0x100000000 :=
      h.block 8 4 hpc rfl rfl rfl ⟨rfl, rfl, rfl, rfl, rfl, rfl, rfl, rfl⟩
    refine hblock.mono ?_
    rintro t ⟨htpc, hmem, h1, h2, h3, h8, h0, h4⟩
    exact ⟨htpc, hmem, h1, h2, h3, h8, by rw [h0, h4]; rfl⟩
  back i hi s hpc hcount := by
    have hblock : After (turn c) 1 s fun t => t.pc = BitVec.ofNat 16 34 ∧ t.mem = s.mem ∧
        t.reg 0 = s.reg 0 ∧ t.reg 1 = s.reg 1 ∧ t.reg 2 = s.reg 2 ∧ t.reg 3 = s.reg 3 ∧
        t.reg 4 = s.reg 4 ∧ t.reg 5 = s.reg 5 ∧ t.reg 8 = s.reg 8 + 1 :=
      h.block 33 1 hpc rfl rfl rfl ⟨rfl, rfl, rfl, rfl, rfl, rfl, rfl, rfl, rfl⟩
    refine hblock.seq (n := 2) ?_
    rintro t ⟨htpc, hmem, h0, h1, h2, h3, h4, h5, h8⟩
    have hnext : t.reg 8 = BitVec.ofNat 64 (i + 1) := by
      rw [h8, hcount, BitVec.ofNat_add]
      rfl
    -- the counter is far from its limit
    have hlimit : jmpTaken .jsgt .imm (t.reg 8) (t.reg 0) 0x800 = false := by
      show decide ((BitVec.signExtend 64 0x800#32).toInt < (t.reg 8).toInt) = false
      rw [decide_eq_false_iff_not, hnext, BitVec.toInt_ofNat',
        Int.bmod_eq_of_le (by omega) (by omega)]
      show ¬(0x800 : ℤ) < _
      omega
    refine .head (h.falls 34 htpc rfl rfl hlimit) ?_
    by_cases hzero : s.reg 5 = 0
    · have hfalls : jmpTaken .jne .imm (t.reg 5) (t.reg 0) 0 = false := by
        rw [h5, hzero]
        rfl
      exact .head (h.falls 35 rfl rfl rfl hfalls)
        (.refl ⟨by rw [if_pos hzero], hmem, h0, h1, h2, h3, h4, hnext⟩)
    · have htaken : jmpTaken .jne .imm (t.reg 5) (t.reg 0) 0 = true :=
        bne_iff_ne.mpr (h5.symm ▸ hzero)
      exact .head (h.taken 35 8 rfl rfl rfl rfl htaken)
        (.refl ⟨by rw [if_neg hzero], hmem, h0, h1, h2, h3, h4, hnext⟩)
  out s hpc := by
    have hor : After (turn c) 1 s fun t => t.pc = BitVec.ofNat 16 37 ∧
        t.reg 0 = s.reg 0 ||| s.reg 4 := h.block 36 1 hpc rfl rfl rfl ⟨rfl, rfl⟩
    exact hor.seqWithin (n := 0) fun t ht => .refl (ht.2 ▸ h.exit 37 ht.1 rfl)

theorem dest_destLen (b : BitVec 8) :
    (b.setWidth 64 <<< 3 ||| 6).setWidth 8 = (((b.setWidth 32 + 1) <<< 3) - 2).setWidth 8 ∧
      (b.setWidth 64 <<< 3 ||| 6).setWidth 8 ≠ 0 := by
  revert b
  decide

/-- The four instructions behind the loads of the arguments: they compute the
length, and step over the head. -/
theorem dest_start {s t : State} {head out : ℕ} {Counts : ℕ → BitVec 64 → Prop}
    (hmem : s.mem = mem)
    (hs2 : s.reg 2 =
      BitVec.ofNat 64 (loadLE mem ((c.mem.setWidth 64 + 0).setWidth 32) Size.w.bytes))
    (hs3 : s.reg 3 =
      BitVec.ofNat 64 (loadLE mem ((c.mem.setWidth 64 + 8).setWidth 32) Size.w.bytes) + 2)
    (hpc : t.pc = BitVec.ofNat 16 head) (hmem' : t.mem = s.mem) (h2 : t.reg 2 = s.reg 2 + 2)
    (h3 : t.reg 3 = s.reg 3)
    (h1 : t.reg 1 =
      BitVec.ofNat 64 (loadLE s.mem ((s.reg 2 + 1).setWidth 32) Size.b.bytes) <<< 3 ||| 6)
    (hcounts : Counts 0 (t.reg 8)) :
    DestAt mem head out Counts 0
      (.start mem (load32 mem c.mem) (load32 mem (c.mem + 8) + 2)) t := by
  have hadd (x : BitVec 32) (y : BitVec 64) :
      (x.setWidth 64 + y).setWidth 32 = x + y.setWidth 32 :=
    setWidth_add_setWidth x y (by decide)
  rw [ofNat_loadLE_word, hadd, show c.mem + (0 : BitVec 64).setWidth 32 = c.mem from
    BitVec.add_zero _] at hs2
  rw [ofNat_loadLE_word, hadd] at hs3
  rw [hs2] at h1 h2
  rw [hmem, hadd, ofNat_loadLE_byte] at h1
  obtain ⟨hlen, hpos⟩ := dest_destLen (mem (load32 mem c.mem + 1))
  have hstart : (t.reg 1).setWidth 8 = destLen mem (load32 mem c.mem) := by
    rw [h1]
    exact hlen
  refine ⟨fun _ => ⟨hpc, hmem'.trans hmem, ?_, ?_, hstart⟩, fun hzero => ?_, hcounts⟩
  · rw [h2, hadd]
    show _ = BitVec.ofNat 32 ((load32 mem c.mem).toNat + 2)
    rw [BitVec.ofNat_add, BitVec.ofNat_toNat, BitVec.setWidth_eq]
    rfl
  · rw [h3, hs3, hadd]
    rfl
  · exact absurd (hlen.trans hzero) hpos

/-- Of a walk the budget allows the first program 1365 turns. -/
theorem dest_runs (hruns : Runs 0 destListing c) (reg : BitVec 4 → BitVec 64) (mem : Mem) :
    ebpfVmExec c reg mem =
      .stop (destOutcome c mem
        (.start mem (load32 mem c.mem) (load32 mem (c.mem + 8) + 2)) 1365) := by
  have hloads : After (turn c) 3 (initState c reg mem) fun t => t.pc = BitVec.ofNat 16 3 ∧
      t.mem = mem ∧
      t.reg 2 = BitVec.ofNat 64 (loadLE mem ((c.mem.setWidth 64 + 0).setWidth 32) Size.w.bytes) ∧
      t.reg 3 =
        BitVec.ofNat 64 (loadLE mem ((c.mem.setWidth 64 + 8).setWidth 32) Size.w.bytes) + 2 :=
    hruns.block 0 3 rfl rfl rfl rfl ⟨rfl, rfl, rfl, rfl⟩
  refine (dest_frame hruns).exec (3 + 4) (hloads.seq ?_) (by decide) (by decide)
  rintro s ⟨hpc, hmem, h2, h3⟩
  have hstart : After (turn c) 4 s fun t => t.pc = BitVec.ofNat 16 7 ∧ t.mem = s.mem ∧
      t.reg 2 = s.reg 2 + 2 ∧ t.reg 3 = s.reg 3 ∧ t.reg 1 =
        BitVec.ofNat 64 (loadLE s.mem ((s.reg 2 + 1).setWidth 32) Size.b.bytes) <<< 3 ||| 6 :=
    hruns.block 3 4 hpc rfl rfl rfl ⟨rfl, rfl, rfl, rfl, rfl⟩
  refine hstart.mono ?_
  rintro t ⟨htpc, hmem', h2', h3', h1'⟩
  exact dest_start hmem h2 h3 htpc hmem' h2' h3' h1' trivial

/-- The second is allowed 1260. -/
theorem destSfi_runs (hruns : Runs 0 destSfiListing c) (reg : BitVec 4 → BitVec 64) (mem : Mem) :
    ebpfVmExec c reg mem =
      .stop (destOutcome c mem
        (.start mem (load32 mem c.mem) (load32 mem (c.mem + 8) + 2)) 1260) := by
  have hloads : After (turn c) 4 (initState c reg mem) fun t => t.pc = BitVec.ofNat 16 4 ∧
      t.mem = mem ∧
      t.reg 2 = BitVec.ofNat 64 (loadLE mem ((c.mem.setWidth 64 + 0).setWidth 32) Size.w.bytes) ∧
      t.reg 3 =
        BitVec.ofNat 64 (loadLE mem ((c.mem.setWidth 64 + 8).setWidth 32) Size.w.bytes) + 2 ∧
      t.reg 8 = 0 :=
    hruns.block 0 4 rfl rfl rfl rfl ⟨rfl, rfl, rfl, rfl, rfl⟩
  refine (destSfi_frame hruns).exec (4 + 4) (hloads.seq ?_) (by decide) (by decide)
  rintro s ⟨hpc, hmem, h2, h3, h8⟩
  have hstart : After (turn c) 4 s fun t => t.pc = BitVec.ofNat 16 8 ∧ t.mem = s.mem ∧
      t.reg 2 = s.reg 2 + 2 ∧ t.reg 3 = s.reg 3 ∧ t.reg 1 =
        BitVec.ofNat 64 (loadLE s.mem ((s.reg 2 + 1).setWidth 32) Size.b.bytes) <<< 3 ||| 6 ∧
      t.reg 8 = s.reg 8 :=
    hruns.block 4 4 hpc rfl rfl rfl ⟨rfl, rfl, rfl, rfl, rfl, rfl⟩
  refine hstart.mono ?_
  rintro t ⟨htpc, hmem', h2', h3', h1', h8'⟩
  exact dest_start hmem h2 h3 htpc hmem' h2' h3' h1' (h8'.trans h8)

theorem dest_exec {base : BitVec 32} (reg : BitVec 4 → BitVec 64) (mem : Mem)
    (hload : Loaded (amnesia33Cve17445 ++ rest) base c.vm mem)
    (hcheck : c.vm.boundsCheckEnabled = false) :
    ebpfVmExec c reg mem =
      .stop (destOutcome c mem
        (.start mem (load32 mem c.mem) (load32 mem (c.mem + 8) + 2)) 1365) := by
  obtain ⟨hruns, hexec⟩ := hload.runs hcheck disassemble_dest (by decide +kernel)
    (by decide +kernel)
  rw [hexec]
  exact dest_runs hruns reg mem

theorem destSfi_exec {base : BitVec 32} (reg : BitVec 4 → BitVec 64) (mem : Mem)
    (hload : Loaded (amnesia33Cve17445Sfi ++ rest) base c.vm mem)
    (hcheck : c.vm.boundsCheckEnabled = false) :
    ebpfVmExec c reg mem =
      .stop (destOutcome c mem
        (.start mem (load32 mem c.mem) (load32 mem (c.mem + 8) + 2)) 1260) := by
  obtain ⟨hruns, hexec⟩ := hload.runs hcheck disassemble_destSfi (by decide +kernel)
    (by decide +kernel)
  rw [hexec]
  exact destSfi_runs hruns reg mem

/-- On a header without an option that is too long the filter needs no more
turns than there are bytes. -/
theorem destFilter_stops (mem : Mem) (u : DestWalk) (h : ¬Overlong mem u.option u.len.toNat) :
    ∃ ret, run (destFilterStep mem) (u.len.toNat + 1) u = .stop ret := by
  induction hn : u.len.toNat using Nat.strong_induction_on generalizing u with
  | _ n ih =>
      by_cases hlen : u.len = 0
      · exact ⟨_, run_succ_stop (by rw [destFilterStep, if_pos hlen])⟩
      · by_cases hguard : Intercepts mem u
        · exact ⟨_, run_succ_stop (by rw [destFilterStep, if_neg hlen, if_pos hguard])⟩
        · have hpos := optLen_pos_of_not_intercepts hguard
          have hne : u.len.toNat ≠ 0 := fun hzero => hlen (BitVec.eq_of_toNat_eq hzero)
          have hle : (optLen mem u.option).toNat ≤ u.len.toNat := by
            by_contra hlt
            exact h (.here (by omega) (by omega))
          have hnext : (u.advance mem).len.toNat = u.len.toNat - (optLen mem u.option).toNat :=
            BitVec.toNat_sub_of_le hle
          have hrest : ¬Overlong mem (u.advance mem).option (u.advance mem).len.toNat := by
            rw [hnext]
            exact fun hlater => h (.later hpos hle hlater)
          obtain ⟨ret, hret⟩ := ih _ (by omega) (u.advance mem) hrest rfl
          have hcont : destFilterStep mem u = .cont (u.advance mem) := by
            rw [destFilterStep, if_neg hlen, if_neg hguard]
          exact ⟨ret, (run_succ_cont hcont).trans (run_stop_mono hret (by omega))⟩

/-- Where the filter stops within the turns that the budget allows, its result
is returned. -/
theorem destOutcome_of_stops {u : DestWalk} {n : ℕ} {ret : BitVec 64} (limit : ℕ)
    (h : run (destFilterStep mem) n u = .stop ret) (hn : n ≤ limit) :
    destOutcome c mem u limit = .returned .exit ret := by
  rw [destOutcome, run_stop_mono h hn]

end Programs

/-- Each of the two programs does what `filter` does, as far as it gets. Of a
walk the budget allows 1365 turns of the first and 1260 of the second, so the
limit of 2048 turns that the second sets itself is never what ends a call. -/
theorem amnesia33_exec (rest : List (BitVec 8)) (base : BitVec 32) (c : Call)
    (hcheck : c.vm.boundsCheckEnabled = false) (reg : BitVec 4 → BitVec 64) (mem : Mem) :
    (Loaded (amnesia33Cve17445 ++ rest) base c.vm mem →
      ebpfVmExec c reg mem = .stop (destOutcome c mem
        (.start mem (load32 mem c.mem) (load32 mem (c.mem + 8) + 2)) 1365)) ∧
      (Loaded (amnesia33Cve17445Sfi ++ rest) base c.vm mem →
        ebpfVmExec c reg mem = .stop (destOutcome c mem
          (.start mem (load32 mem c.mem) (load32 mem (c.mem + 8) + 2)) 1260)) :=
  ⟨fun hload => dest_exec reg mem hload hcheck, fun hload => destSfi_exec reg mem hload hcheck⟩

def shortHeaderMem : Mem := memcpy shortHeader codeBase (amnesia33Cve17445 ++ [0])

theorem amnesia33_exec_short :
    ebpfVmExec (callOf (amnesia33Cve17445 ++ [0])) (fun _ => 7) shortHeaderMem =
      .stop (destOutcome (callOf (amnesia33Cve17445 ++ [0])) shortHeaderMem
        (.start shortHeaderMem 0x4000000 2) 1365) :=
  (amnesia33_exec [0] codeBase (callOf (amnesia33Cve17445 ++ [0])) rfl (fun _ => 7)
    shortHeaderMem).1 (callOf_loaded _ _)

/-- Where no option is too long, both programs return what the filter does, and
the calls they let pass are calls on which the unpatched loop ends within the
header, having read at most one byte behind it. -/
theorem amnesia33_patch (code rest : List (BitVec 8)) (base : BitVec 32) (c : Call)
    (hcode : code = amnesia33Cve17445 ∨ code = amnesia33Cve17445Sfi)
    (reg : BitVec 4 → BitVec 64) (mem : Mem) (hload : Loaded (code ++ rest) base c.vm mem)
    (hcheck : c.vm.boundsCheckEnabled = false)
    (hlong : ¬Overlong mem ((load32 mem c.mem).toNat + 2) (destLen mem (load32 mem c.mem)).toNat) :
    ∃ ret, ebpfVmExec c reg mem = .stop (.returned .exit ret) ∧
      (filterOp ret = 0 ↔ DestFilterPasses mem (load32 mem c.mem) (load32 mem (c.mem + 8))) ∧
      (filterOp ret = 0 →
        Terminates mem (.start mem (load32 mem c.mem) (load32 mem (c.mem + 8))) ∧
          StaysBelow mem (.start mem (load32 mem c.mem) (load32 mem (c.mem + 8)))
            ((load32 mem c.mem).toNat + 2 + (destLen mem (load32 mem c.mem)).toNat) ∧
          ReadsBelow mem (.start mem (load32 mem c.mem) (load32 mem (c.mem + 8)))
            ((load32 mem c.mem).toNat + 2 + (destLen mem (load32 mem c.mem)).toNat + 1)) := by
  obtain ⟨ret, hret⟩ := destFilter_stops mem
    (.start mem (load32 mem c.mem) (load32 mem (c.mem + 8) + 2)) hlong
  have hturns := (destLen mem (load32 mem c.mem)).isLt
  have hexec : ebpfVmExec c reg mem = .stop (.returned .exit ret) := by
    rcases hcode with rfl | rfl
    · rw [dest_exec reg mem hload hcheck,
        destOutcome_of_stops 1365 hret (Nat.le_trans hturns (by decide))]
    · rw [destSfi_exec reg mem hload hcheck,
        destOutcome_of_stops 1260 hret (Nat.le_trans hturns (by decide))]
  refine ⟨ret, hexec, ⟨fun hop => ⟨_, ret, hret, hop⟩, ?_⟩, fun hop => ?_⟩
  · rintro ⟨n, ret', hret', hop⟩
    have hmax := (run_stop_mono hret (Nat.le_max_left _ n)).symm.trans
      (run_stop_mono hret' (Nat.le_max_right _ n))
    cases hmax
    exact hop
  · obtain ⟨hends, hstays⟩ := walk_of_filter_passes hret hop (load32 mem (c.mem + 8))
    exact ⟨hends, hstays.mpr hlong, readsBelow_of_not_overlong hlong⟩

def zerosMem : Mem := memcpy (fun _ => 0) codeBase (amnesia33Cve17445Sfi ++ [])

theorem zeros_not_overlong : ¬Overlong zerosMem 2 6 := by
  rw [overlong_iff_later (by decide) (by decide), overlong_iff_later (by decide) (by decide),
    overlong_iff_later (by decide) (by decide)]
  exact not_overlong_zero _ _

theorem amnesia33_patch_zeros :
    ∃ ret, ebpfVmExec (callOf (amnesia33Cve17445Sfi ++ [])) (fun _ => 7) zerosMem =
        .stop (.returned .exit ret) ∧
      (filterOp ret = 0 ↔ DestFilterPasses zerosMem 0 0) ∧
      (filterOp ret = 0 → Terminates zerosMem (.start zerosMem 0 0) ∧
        StaysBelow zerosMem (.start zerosMem 0 0) 8 ∧
          ReadsBelow zerosMem (.start zerosMem 0 0) 9) :=
  amnesia33_patch amnesia33Cve17445Sfi [] codeBase (callOf (amnesia33Cve17445Sfi ++ [])) (.inr rfl)
    (fun _ => 7) zerosMem (callOf_loaded _ _) rfl zeros_not_overlong

end RapidPatch.Patches
